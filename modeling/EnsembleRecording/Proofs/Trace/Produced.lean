import EnsembleRecording.Proofs.Assembly.Coverage
import EnsembleRecording.Proofs.History
import EnsembleRecording.Proofs.Layout.Image
import EnsembleRecording.Proofs.Probe.Sample
import EnsembleRecording.Proofs.Trace.Views

/-!
# Produced Traces

The traces that the library gives: made for a shape, read from a region, assembled, sampled and
stacked, each out of traces that came about in these ways before.  A machine can address every one
of them, because what reading and assembling count, sampling only makes smaller; so all their views
agree.
-/

namespace EnsembleRecording

namespace Trace

/-- The trace comes of operations of the library, applied to traces that come of them.  A number of
steps that is handed over is a machine size.  Of a stack, nothing counts the steps and the rows, and
these have to be machine sizes as well; its elements are held in memory, so that theirs is one. -/
inductive Produced : Trace → Prop
  | built {trace : Trace} (h : trace.Built) (hsteps : trace.shape.steps < Size.limit) :
    Produced trace
  | read {layout : Layout} {region : Region} {neurons steps : Nat} {trace : Trace}
    (h : layout.readBack region neurons steps = .ok trace) (hsteps : steps < Size.limit) :
    Produced trace
  | assembled {shape : Shape} {assembly : Assembly} {offered : List Assembly.Piece}
    {trace : Trace} (hnew : Assembly.ofShape shape = .ok assembly)
    (hsteps : shape.steps < Size.limit)
    (hoffered : ∀ piece ∈ offered, Produced piece.recording)
    (h : (assembly.insertAll offered).2.finish = .ok trace) : Produced trace
  | sampled {probe : Probe} {whole sample : Trace} (hwhole : Produced whole)
    (h : probe.apply whole = .ok sample) : Produced sample
  | stacked {runs : List Trace} {trace : Trace} (hruns : ∀ run ∈ runs, Produced run)
    (h : (History.empty.pushAll runs).2.trace? = some trace)
    (hsteps : trace.shape.steps < Size.limit)
    (hrows : trace.shape.steps * trace.shape.neurons < Size.limit)
    (hsize : trace.data.size < Size.limit) : Produced trace

theorem isAddressable_of_count? {trace : Trace} {count : Nat}
    (hsteps : trace.shape.steps < Size.limit) (hcount : trace.shape.count? = some count) :
    trace.IsAddressable := by
  refine ⟨hsteps, ?_⟩
  rw [hcount, Shape.eq_count_of_count? hcount, trace.size_data]

/-- An assembly is finished with a trace of the shape that it was made for. -/
theorem isAddressable_of_finish {shape : Shape} {assembly : Assembly}
    (hnew : Assembly.ofShape shape = .ok assembly) (hsteps : shape.steps < Size.limit)
    {offered : List Assembly.Piece} {trace : Trace}
    (h : (assembly.insertAll offered).2.finish = .ok trace) : trace.IsAddressable := by
  have hshape : trace.shape = shape := by
    rw [Assembly.trace_eq_of_finish_eq_ok h]
    exact ((Assembly.holds_of_ofShape hnew).insertAll offered).shape_eq
  obtain ⟨zeros, hzeros, -⟩ := Assembly.ofShape_eq_ok_iff.1 hnew
  obtain ⟨-, hcount, -, -⟩ := zeros_eq_ok_some hzeros
  rw [← hshape] at hsteps hcount
  exact isAddressable_of_count? hsteps hcount

theorem IsAddressable.sample {probe : Probe} {whole sample : Trace} (h : whole.IsAddressable)
    (happly : probe.apply whole = .ok sample) : sample.IsAddressable := by
  obtain ⟨hstop, hcan⟩ := Probe.canSample_of_apply_eq_ok happly
  obtain ⟨kept, hkept⟩ := Probe.exists_isSampleOf hstop
  cases (hcan.toFitsBuffers.apply_eq_ok h.count?_eq hstop hkept).symm.trans happly
  have hwithin := Probe.sampleShape_isWithin hstop
  rw [← hkept.shape_eq] at hwithin
  exact isAddressable_of_count? (Nat.lt_of_le_of_lt hwithin.steps_le h.steps_lt)
    (hwithin.count?_eq h.count?_eq)

theorem Produced.isAddressable {trace : Trace} (h : trace.Produced) : trace.IsAddressable := by
  induction h with
  | built h hsteps => exact ⟨hsteps, h.count?_eq⟩
  | read h hsteps =>
    obtain ⟨hshape, hcount⟩ := Layout.shape_of_readBack_eq_ok h
    refine ⟨?_, hcount⟩
    rwa [hshape]
  | assembled hnew hsteps _ h =>
    exact isAddressable_of_finish hnew hsteps h
  | sampled _ h ih => exact ih.sample h
  | @stacked runs trace _ _ hsteps hrows hsize =>
    rw [trace.size_data] at hsize
    exact isAddressable_of_count? hsteps (Shape.count?_eq_some_iff.2 ⟨hrows, hsize, rfl⟩)

/-- Whatever operations a trace comes of, it has as many elements as its shape calls for, a machine
finds each of them, and all its views can be taken and agree. -/
theorem Produced.views_agree {trace : Trace} (h : trace.Produced) :
    trace.HasConsistentViews :=
  h.isAddressable.hasConsistentViews

/-- The second neuron at all steps of a run of one step and one of two. -/
theorem Produced.views_agree_of_sampled_stack :
    ∃ trace : Trace, trace.Produced ∧ trace.HasConsistentViews ∧ trace.shape = ⟨3, 1, 2⟩ ∧
      trace.step? 2 = some #[⟨11⟩, ⟨12⟩] ∧
      trace.series? 0 = some #[⟨3⟩, ⟨4⟩, ⟨7⟩, ⟨8⟩, ⟨11⟩, ⟨12⟩] := by
  let first : Trace := ⟨⟨1, 2, 2⟩, #[⟨1⟩, ⟨2⟩, ⟨3⟩, ⟨4⟩], rfl⟩
  let second : Trace := ⟨⟨2, 2, 2⟩, #[⟨5⟩, ⟨6⟩, ⟨7⟩, ⟨8⟩, ⟨9⟩, ⟨10⟩, ⟨11⟩, ⟨12⟩], rfl⟩
  let whole : Trace := first.stack second ⟨rfl, rfl⟩
  let probe : Probe := ⟨1, ⟨1, 2⟩, 1, by decide, by decide, by decide⟩
  have hmadeFirst : ofArray? first.shape first.data = some first := rfl
  have hmadeSecond : ofArray? second.shape second.data = some second := rfl
  have hruns : ∀ run ∈ [first, second], run.Produced := by
    intro run hrun
    rcases List.mem_pair.1 hrun with rfl | rfl
    · exact .built (.ofArray hmadeFirst) (by decide)
    · exact .built (.ofArray hmadeSecond) (by decide)
  have hwhole : whole.Produced := .stacked hruns rfl (by decide) (by decide) (by decide)
  let sample : Trace := ⟨⟨3, 1, 2⟩, #[⟨3⟩, ⟨4⟩, ⟨7⟩, ⟨8⟩, ⟨11⟩, ⟨12⟩], rfl⟩
  have happly : probe.apply whole = .ok sample := by cbv
  have hsample := hwhole.sampled happly
  exact ⟨sample, hsample, hsample.views_agree, rfl, by decide, by decide⟩

end Trace

end EnsembleRecording
