import EnsembleRecording.Probe
import EnsembleRecording.Proofs.Trace.Elements
import Mathlib

/-!
# Accumulation over Runs

Traces of the same neurons and dimensions are stacked by putting the elements of one behind those of
the other.  Since steps are the outermost axis, a step of the later trace is found behind all steps
of the earlier one, however many traces lie below.

A history is described after any runs were handed over, accepted and refused ones, in terms of the
runs that it took in.  The first run is taken in whatever its shape, and each later one if it is of
the same neurons and dimensions.  Every element of every run stays where the run put it.
-/

namespace EnsembleRecording

/-- Behind the last step the positions go on as they begin. -/
theorem Shape.index_steps_add (shape : Shape) (step neuron dim : Nat) :
    shape.index (shape.steps + step) neuron dim = shape.count + shape.index step neuron dim := by
  simp only [index, count, Nat.add_mul, Nat.add_assoc]

namespace Trace

/-- The traces are of the same neurons and dimensions. -/
def SameAxes (trace other : Trace) : Prop :=
  trace.shape.neurons = other.shape.neurons ∧ trace.shape.dims = other.shape.dims

theorem SameAxes.refl (trace : Trace) : trace.SameAxes trace := ⟨rfl, rfl⟩

theorem SameAxes.symm {trace other : Trace} (h : trace.SameAxes other) : other.SameAxes trace :=
  ⟨h.1.symm, h.2.symm⟩

theorem SameAxes.trans {first second third : Trace} (h : first.SameAxes second)
    (h' : second.SameAxes third) : first.SameAxes third :=
  ⟨h.1.trans h'.1, h.2.trans h'.2⟩

section

variable {trace later : Trace} (h : later.SameAxes trace)

theorem sameAxes_stack : trace.SameAxes (trace.stack later h) := ⟨rfl, rfl⟩

theorem hasPlace_stack_iff_of_lt {step neuron dim : Nat} (hstep : step < trace.shape.steps) :
    (trace.stack later h).shape.HasPlace step neuron dim ↔
      trace.shape.HasPlace step neuron dim := by
  constructor
  · rintro ⟨-, hneuron, hdim⟩
    exact ⟨hstep, hneuron, hdim⟩
  · rintro ⟨-, hneuron, hdim⟩
    exact ⟨Nat.lt_add_right _ hstep, hneuron, hdim⟩

theorem hasPlace_stack_iff (step neuron dim : Nat) :
    (trace.stack later h).shape.HasPlace (trace.shape.steps + step) neuron dim ↔
      later.shape.HasPlace step neuron dim := by
  constructor
  · rintro ⟨hstep, hneuron, hdim⟩
    exact ⟨Nat.lt_of_add_lt_add_left hstep, h.1 ▸ hneuron, h.2 ▸ hdim⟩
  · rintro ⟨hstep, hneuron, hdim⟩
    exact ⟨Nat.add_lt_add_left hstep _, h.1 ▸ hneuron, h.2 ▸ hdim⟩

/-- The steps of the trace stay where they are. -/
theorem get?_stack_of_lt {step : Nat} (hstep : step < trace.shape.steps) (neuron dim : Nat) :
    (trace.stack later h).get? step neuron dim = trace.get? step neuron dim := by
  by_cases hplace : trace.shape.HasPlace step neuron dim
  · have hindex := Shape.index_lt_count hplace.step_lt hplace.neuron_lt hplace.dim_lt
    rw [← trace.size_data] at hindex
    rw [get?_eq_data hplace, get?_eq_data ((hasPlace_stack_iff_of_lt h hstep).2 hplace)]
    exact Array.getElem?_append_left hindex
  · rw [get?_eq_none hplace, get?_eq_none (hplace ∘ (hasPlace_stack_iff_of_lt h hstep).1)]

/-- The steps of the later trace are counted from the end of the trace. -/
theorem get?_stack_add (step neuron dim : Nat) :
    (trace.stack later h).get? (trace.shape.steps + step) neuron dim =
      later.get? step neuron dim := by
  by_cases hplace : later.shape.HasPlace step neuron dim
  · have hindex : (trace.stack later h).shape.index (trace.shape.steps + step) neuron dim =
        trace.data.size + later.shape.index step neuron dim := by
      calc trace.shape.index (trace.shape.steps + step) neuron dim
          = trace.shape.count + trace.shape.index step neuron dim :=
            Shape.index_steps_add _ _ _ _
        _ = trace.data.size + later.shape.index step neuron dim := by
            rw [trace.size_data, Shape.index, Shape.index, h.1, h.2]
    rw [get?_eq_data hplace, get?_eq_data ((hasPlace_stack_iff h step neuron dim).2 hplace), hindex]
    change (trace.data ++ later.data)[_]? = _
    rw [Array.getElem?_append_right (Nat.le_add_right _ _), Nat.add_sub_cancel_left]
  · rw [get?_eq_none hplace, get?_eq_none (hplace ∘ (hasPlace_stack_iff h step neuron dim).1)]

theorem stack_of_no_steps (hsteps : later.shape.steps = 0) : trace.stack later h = trace := by
  apply eq_of_get?_eq
  · change (trace.shape.addSteps later.shape.steps) = _
    rw [hsteps]
    rfl
  · intro step neuron dim hplace
    apply get?_stack_of_lt
    have hstep : step < trace.shape.steps + later.shape.steps := hplace.step_lt
    rwa [hsteps] at hstep

end

/-- The steps of several traces, added up. -/
def totalSteps (traces : List Trace) : Nat := (traces.map fun trace ↦ trace.shape.steps).sum

/-- The steps of a trace lie before the end of all. -/
theorem totalSteps_take_add_le {traces : List Trace} {k : Nat} {trace : Trace}
    (hk : traces[k]? = some trace) :
    totalSteps (traces.take k) + trace.shape.steps ≤ totalSteps traces := by
  calc totalSteps (traces.take k) + trace.shape.steps
      = totalSteps (traces.take (k + 1)) := by
        simp only [totalSteps, List.take_add_one, hk, Option.toList_some, List.map_append,
          List.map_singleton, List.sum_append, List.sum_singleton]
    _ ≤ totalSteps (traces.take (k + 1)) + totalSteps (traces.drop (k + 1)) :=
        Nat.le_add_right _ _
    _ = totalSteps traces := by
        rw [totalSteps, totalSteps, ← List.sum_append, ← List.map_append, List.take_append_drop,
          totalSteps]

/-- The traces lie in one, each behind those before it. -/
structure IsStackOf (whole : Trace) (traces : List Trace) : Prop where
  steps_eq : whole.shape.steps = totalSteps traces
  sameAxes : ∀ trace ∈ traces, trace.SameAxes whole
  get?_eq : ∀ k trace, traces[k]? = some trace → ∀ step neuron dim,
    trace.shape.HasPlace step neuron dim →
      whole.get? (totalSteps (traces.take k) + step) neuron dim = trace.get? step neuron dim

theorem IsStackOf.isWithin {whole : Trace} {traces : List Trace} (h : whole.IsStackOf traces)
    {trace : Trace} (hmem : trace ∈ traces) : trace.shape.IsWithin whole.shape := by
  obtain ⟨hneurons, hdims⟩ := h.sameAxes trace hmem
  refine ⟨?_, Nat.le_of_eq hneurons, Nat.le_of_eq hdims⟩
  rw [h.steps_eq]
  exact List.le_sum_of_mem (List.mem_map_of_mem hmem)

/-- A trace has as many elements as those that lie in it together. -/
theorem IsStackOf.size_eq {whole : Trace} {traces : List Trace} (h : whole.IsStackOf traces) :
    whole.data.size = (traces.map fun trace ↦ trace.data.size).sum := by
  have hsizes : ∀ trace ∈ traces, trace.data.size =
      trace.shape.steps * (whole.shape.neurons * whole.shape.dims) := by
    intro trace htrace
    obtain ⟨hneurons, hdims⟩ := h.sameAxes trace htrace
    rw [trace.size_data, Shape.count, hneurons, hdims, Nat.mul_assoc]
  calc whole.data.size
      = totalSteps traces * (whole.shape.neurons * whole.shape.dims) := by
        rw [whole.size_data, Shape.count, h.steps_eq, Nat.mul_assoc]
    _ = (traces.map fun trace ↦
          trace.shape.steps * (whole.shape.neurons * whole.shape.dims)).sum :=
        (List.sum_map_mul_right traces (fun trace ↦ trace.shape.steps) _).symm
    _ = (traces.map fun trace ↦ trace.data.size).sum :=
        congrArg List.sum (List.map_congr_left hsizes).symm

theorem isStackOf_singleton (trace : Trace) : trace.IsStackOf [trace] where
  steps_eq := List.sum_singleton.symm
  sameAxes := fun other hother ↦ List.mem_singleton.1 hother ▸ SameAxes.refl trace
  get?_eq := by
    intro k other hk step neuron dim _
    cases k with
    | zero =>
      cases hk
      rw [List.take_zero, totalSteps, List.map_nil, List.sum_nil, Nat.zero_add]
    | succ k => contradiction

/-- One more trace goes behind all others, and these stay where they are. -/
theorem IsStackOf.stack {whole later : Trace} {traces : List Trace} (h : whole.IsStackOf traces)
    (hlater : later.SameAxes whole) : (whole.stack later hlater).IsStackOf (traces ++ [later]) where
  steps_eq := by
    rw [totalSteps, List.map_append, List.sum_append, List.map_singleton, List.sum_singleton]
    exact congrArg (· + later.shape.steps) h.steps_eq
  sameAxes := by
    intro trace htrace
    rcases List.mem_append.1 htrace with hearlier | hlast
    · exact (h.sameAxes trace hearlier).trans (sameAxes_stack hlater)
    · rw [List.mem_singleton.1 hlast]
      exact hlater.trans (sameAxes_stack hlater)
  get?_eq := by
    intro k trace hk step neuron dim hplace
    by_cases hearlier : k < traces.length
    · rw [List.getElem?_append_left hearlier] at hk
      rw [List.take_append_of_le_length (Nat.le_of_lt hearlier)]
      have hbelow : totalSteps (traces.take k) + step < whole.shape.steps := by
        have hend := totalSteps_take_add_le hk
        have hstep := hplace.step_lt
        rw [h.steps_eq]
        omega
      rw [get?_stack_of_lt hlater hbelow]
      exact h.get?_eq k trace hk step neuron dim hplace
    · have hlength : k < (traces ++ [later]).length := (List.getElem?_eq_some_iff.1 hk).1
      obtain rfl : k = traces.length := by
        rw [List.length_append, List.length_singleton] at hlength
        omega
      rw [List.getElem?_concat_length] at hk
      cases hk
      rw [List.take_left, ← h.steps_eq, get?_stack_add]

end Trace

namespace History

open Trace (totalSteps)

/-- Hands over runs in order.  The first component lists the runs that are taken in, the second is
the history as it is left. -/
def pushAll (history : History) : List Trace → List Trace × History
  | [] => ([], history)
  | run :: rest =>
    match history.push run with
    | (.ok _, left) => (run :: (left.pushAll rest).1, (left.pushAll rest).2)
    | (.error _, left) => left.pushAll rest

section

variable {history : History} {run earlier : Trace}

theorem push_of_none (h : history.trace? = none) (run : Trace) :
    history.push run = (.ok (), ⟨some run, history.runs + 1⟩) := by
  simp only [push, h]

theorem push_of_sameAxes (h : history.trace? = some earlier) (hsame : run.SameAxes earlier) :
    history.push run = (.ok (), ⟨some (earlier.stack run hsame), history.runs + 1⟩) := by
  simp only [push, h]
  exact dif_pos hsame

theorem push_of_not_sameAxes (h : history.trace? = some earlier)
    (hother : ¬run.SameAxes earlier) :
    history.push run = (.error (.shapeMismatch
      ⟨run.shape.steps, earlier.shape.neurons, earlier.shape.dims⟩ run.shape), history) := by
  simp only [push, h]
  exact dif_neg hother

/-- A run without steps that is taken in counts as a run.  It is what the history holds only if
there was nothing before. -/
theorem push_of_no_steps (hsteps : run.shape.steps = 0) (hok : (history.push run).1 = .ok ()) :
    history.push run = (.ok (), ⟨some (history.trace?.getD run), history.runs + 1⟩) := by
  cases htrace : history.trace? with
  | none => exact push_of_none htrace run
  | some earlier =>
    by_cases hsame : run.SameAxes earlier
    · rw [push_of_sameAxes htrace hsame, Trace.stack_of_no_steps hsame hsteps]
      rfl
    · rw [push_of_not_sameAxes htrace hsame] at hok
      contradiction

end

theorem pushAll_cons_of_push {history left : History} {run : Trace}
    (h : history.push run = (.ok (), left)) (rest : List Trace) :
    history.pushAll (run :: rest) = (run :: (left.pushAll rest).1, (left.pushAll rest).2) := by
  rw [pushAll, h]

/-- The history has taken in some runs, in the given order. -/
structure Holds (taken : List Trace) (history : History) : Prop where
  runs_eq : history.runs = taken.length
  eq_none_iff : history.trace? = none ↔ taken = []
  isStackOf : ∀ trace, history.trace? = some trace → trace.IsStackOf taken

theorem holds_empty : Holds [] empty where
  runs_eq := rfl
  eq_none_iff := ⟨fun _ ↦ rfl, fun _ ↦ rfl⟩
  isStackOf := by
    intro trace htrace
    contradiction

/-- The run is of the neurons and dimensions of the first of the runs before it, if there is one. -/
def Continues (taken : List Trace) (run : Trace) : Prop :=
  ∀ first, taken.head? = some first → run.SameAxes first

section

variable {taken : List Trace} {history : History} {run : Trace}

/-- All runs that were taken in are of the neurons and dimensions of the first. -/
theorem Holds.continues_iff (h : Holds taken history) {trace : Trace}
    (htrace : history.trace? = some trace) : Continues taken run ↔ run.SameAxes trace := by
  cases taken with
  | nil =>
    rw [h.eq_none_iff.2 rfl] at htrace
    contradiction
  | cons first rest =>
    have hfirst := (h.isStackOf trace htrace).sameAxes first List.mem_cons_self
    constructor
    · intro hcontinues
      exact (hcontinues first rfl).trans hfirst
    · intro hsame other hother
      cases hother
      exact hsame.trans hfirst.symm

/-- The step lemma for a run that is taken in: it is the last of those held. -/
theorem Holds.push (h : Holds taken history) (hcontinues : Continues taken run) :
    ∃ left, history.push run = (.ok (), left) ∧ Holds (taken ++ [run]) left := by
  have hruns : history.runs + 1 = (taken ++ [run]).length := by
    rw [List.length_append, h.runs_eq, List.length_singleton]
  have hsome (trace : Trace) : some trace = none ↔ taken ++ [run] = [] := by
    simp
  cases htrace : history.trace? with
  | none =>
    obtain rfl := h.eq_none_iff.1 htrace
    refine ⟨_, push_of_none htrace run, hruns, hsome run, ?_⟩
    intro trace hrun
    cases hrun
    exact Trace.isStackOf_singleton run
  | some earlier =>
    have hsame := (h.continues_iff htrace).1 hcontinues
    refine ⟨_, push_of_sameAxes htrace hsame, hruns, hsome _, ?_⟩
    intro trace hstack
    cases hstack
    exact (h.isStackOf earlier htrace).stack hsame

/-- The step lemma for a run that is refused: nothing changes. -/
theorem Holds.push_eq_error (h : Holds taken history) (hother : ¬Continues taken run) :
    ∃ trace, history.trace? = some trace ∧
      history.push run = (.error (.shapeMismatch
        ⟨run.shape.steps, trace.shape.neurons, trace.shape.dims⟩ run.shape), history) := by
  cases htrace : history.trace? with
  | none =>
    obtain rfl := h.eq_none_iff.1 htrace
    refine absurd ?_ hother
    intro first hfirst
    contradiction
  | some trace =>
    exact ⟨trace, rfl, push_of_not_sameAxes htrace (hother ∘ (h.continues_iff htrace).2)⟩

theorem Holds.push_eq_ok_iff (h : Holds taken history) :
    (history.push run).1 = .ok () ↔ Continues taken run := by
  by_cases hcontinues : Continues taken run
  · obtain ⟨left, hpush, -⟩ := h.push hcontinues
    rw [hpush]
    exact ⟨fun _ ↦ hcontinues, fun _ ↦ rfl⟩
  · obtain ⟨trace, -, hrefused⟩ := h.push_eq_error hcontinues
    rw [hrefused]
    refine ⟨?_, fun h ↦ absurd h hcontinues⟩
    intro hok
    contradiction

/-- The run lemma: of the runs handed over, those taken in are held behind the earlier ones. -/
theorem Holds.pushAll (h : Holds taken history) (runs : List Trace) :
    Holds (taken ++ (history.pushAll runs).1) (history.pushAll runs).2 := by
  induction runs generalizing taken history with
  | nil =>
    rw [History.pushAll, List.append_nil]
    exact h
  | cons run rest ih =>
    rw [History.pushAll]
    by_cases hcontinues : Continues taken run
    · obtain ⟨left, hpush, hnext⟩ := h.push hcontinues
      have hlast := ih hnext
      rw [List.append_assoc, List.singleton_append] at hlast
      rw [hpush]
      exact hlast
    · obtain ⟨trace, -, hrefused⟩ := h.push_eq_error hcontinues
      rw [hrefused]
      exact ih h

end

/-- What comes of any runs handed over to a new history, and of any further run.  The history counts
the runs that it has taken in, and it holds nothing only as long as there is none.  What it holds
goes on for as many steps as they do together, and each of their elements is found as many steps
further on as the runs before it have.  A further run is taken in if it is the first or has the
neurons and dimensions of the first; else the fault names both shapes and the history stays as it
is.  A run without steps is taken in like any other and adds nothing to what is held. -/
theorem pushAll_stacks_taken (runs : List Trace) :
    let taken := (empty.pushAll runs).1
    let history := (empty.pushAll runs).2
    history.runs = taken.length ∧
      (history.trace? = none ↔ history.runs = 0) ∧
      (∀ trace, history.trace? = some trace →
        trace.shape.steps = totalSteps taken ∧
        ∀ k run, taken[k]? = some run → ∀ step neuron dim, run.shape.HasPlace step neuron dim →
          trace.get? (totalSteps (taken.take k) + step) neuron dim = run.get? step neuron dim) ∧
      ∀ run : Trace,
        ((history.push run).1 = .ok () ↔ ∀ first, taken.head? = some first →
          run.shape.neurons = first.shape.neurons ∧ run.shape.dims = first.shape.dims) ∧
        ((history.push run).1 ≠ .ok () → ∃ trace, history.trace? = some trace ∧
          history.push run = (.error (.shapeMismatch
            ⟨run.shape.steps, trace.shape.neurons, trace.shape.dims⟩ run.shape), history)) ∧
        (run.shape.steps = 0 → (history.push run).1 = .ok () →
          history.push run = (.ok (), ⟨some (history.trace?.getD run), history.runs + 1⟩)) := by
  intro taken history
  have hholds : Holds taken history := holds_empty.pushAll runs
  refine ⟨hholds.runs_eq, ?_, ?_, ?_⟩
  · rw [hholds.runs_eq, hholds.eq_none_iff, List.length_eq_zero_iff]
  · intro trace htrace
    have hstack := hholds.isStackOf trace htrace
    exact ⟨hstack.steps_eq, hstack.get?_eq⟩
  · intro run
    refine ⟨hholds.push_eq_ok_iff, ?_, push_of_no_steps⟩
    intro hrefused
    exact hholds.push_eq_error (hrefused ∘ hholds.push_eq_ok_iff.2)

/-- A run of one step, one of other neurons, which is refused, one without steps, and one of two
steps. -/
theorem pushAll_stacks_taken_of_mixed_runs :
    let first : Trace := ⟨⟨1, 1, 1⟩, #[⟨0x3f800000⟩], rfl⟩
    let wider : Trace := ⟨⟨1, 2, 1⟩, #[⟨0x40000000⟩, ⟨0x40400000⟩], rfl⟩
    let still : Trace := ⟨⟨0, 1, 1⟩, #[], rfl⟩
    let last : Trace := ⟨⟨2, 1, 1⟩, #[⟨0x40800000⟩, ⟨0x40a00000⟩], rfl⟩
    let history := (empty.pushAll [first, wider, still, last]).2
    history.runs = 3 ∧
      (∃ trace, history.trace? = some trace ∧ trace.shape.steps = 3 ∧
        trace.get? 2 0 0 = some ⟨0x40a00000⟩) ∧
      history.push wider = (.error (.shapeMismatch ⟨1, 1, 1⟩ ⟨1, 2, 1⟩), history) ∧
      (history.push still).2 = ⟨history.trace?, 4⟩ := by
  intro first wider still last history
  obtain ⟨hruns, -, htrace, hnext⟩ := pushAll_stacks_taken [first, wider, still, last]
  obtain ⟨trace, hsome⟩ : ∃ trace, history.trace? = some trace := ⟨_, rfl⟩
  obtain ⟨hsteps, hget⟩ := htrace trace hsome
  obtain ⟨earlier, hearlier, hrefused⟩ := (hnext wider).2.1 nofun
  have hstill := (hnext still).2.2 rfl rfl
  refine ⟨hruns, ⟨trace, hsome, hsteps, ?_⟩, ?_, ?_⟩
  · exact hget 2 last rfl 1 0 0 ⟨by decide, by decide, by decide⟩
  · cases hearlier
    exact hrefused
  · exact congrArg Prod.snd hstill

end History

end EnsembleRecording
