import EnsembleRecording.Assembly
import EnsembleRecording.Fault
import EnsembleRecording.Layout
import EnsembleRecording.Memory
import EnsembleRecording.Notice
import EnsembleRecording.Number
import EnsembleRecording.Probe
import EnsembleRecording.Proofs.Assembly.Copy
import EnsembleRecording.Proofs.Assembly.Coverage
import EnsembleRecording.Proofs.Assembly.Division
import EnsembleRecording.Proofs.Assembly.Outcomes
import EnsembleRecording.Proofs.Assembly.Slices
import EnsembleRecording.Proofs.Ensemble.Assembled
import EnsembleRecording.Proofs.Ensemble.Core
import EnsembleRecording.Proofs.History
import EnsembleRecording.Proofs.Layout.Extent
import EnsembleRecording.Proofs.Layout.Image
import EnsembleRecording.Proofs.Layout.Room
import EnsembleRecording.Proofs.Number.Arithmetic
import EnsembleRecording.Proofs.Number.Conversion
import EnsembleRecording.Proofs.Number.Format
import EnsembleRecording.Proofs.Number.Quantisation
import EnsembleRecording.Proofs.Number.Rounding
import EnsembleRecording.Proofs.Number.Single
import EnsembleRecording.Proofs.Probe.Composition
import EnsembleRecording.Proofs.Probe.Sample
import EnsembleRecording.Proofs.Recorder.Addresses
import EnsembleRecording.Proofs.Recorder.Append
import EnsembleRecording.Proofs.Recorder.Attach
import EnsembleRecording.Proofs.Recorder.Epochs
import EnsembleRecording.Proofs.Recorder.Offsets
import EnsembleRecording.Proofs.Trace.Elements
import EnsembleRecording.Proofs.Trace.Produced
import EnsembleRecording.Proofs.Trace.Views
import EnsembleRecording.Proofs.Transfer.Delivered
import EnsembleRecording.Proofs.Transfer.Framing
import EnsembleRecording.Recorder
import EnsembleRecording.Shape
import EnsembleRecording.Source
import EnsembleRecording.Trace
import EnsembleRecording.Transfer
