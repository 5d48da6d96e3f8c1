import ContractCoverage.Proofs.Data.Chain
import ContractCoverage.Trace.Frame

/-! Traces with integer depths.

Depths that are integers can be compared with each other, so the frames of such a trace
can be told apart (`ofSteps_of_ints`). A frame has the depth of one of its steps, so that
depth can be put into words whenever those of the steps can. -/
namespace ContractCoverage

/-- A depth that tracers give: an integer of a size that can be written. -/
def IsDepth (v : Value) : Prop := ∃ n, v = .int n ∧ Text.Numeral.isWritable n = true

/-- All steps of a trace that can be read have integer depths. -/
def HasDepths (trace : Value) : Prop :=
  ∀ steps, Trace.load trace = .ok steps → ∀ step ∈ steps, IsDepth step.depth

/-- Values that count as integers are ordered as these. -/
theorem Value.less_of_int? {v w : Value} {m n : Int} (hv : v.int? = some m) (hw : w.int? = some n) :
    v.less w = .ok (decide (m < n)) := by
  have number?_of_int? : ∀ {u : Value} {k : Int}, u.int? = some k → u.number? = some (.int k) := by
    intro u k hu
    obtain ⟨a, ha, hk⟩ := Option.bind_eq_some_iff.1 hu
    rw [ha, Number.int?_eq_some_iff.1 hk]
  have hless : v.lessNumber w = .ok (decide (m < n)) := by
    rw [lessNumber, number?_of_int? hv, number?_of_int? hw]
    rfl
  cases v with
  | flag b => exact hless
  | int k => exact hless
  | real x => exact hless
  | null => cases hv
  | text s => cases hv
  | list items => cases hv
  | object fields => cases hv

namespace Frame

/-- The depths of all active calls are integers. -/
def HaveDepths (stack : Stack) : Prop := ∀ e ∈ stack, ∃ d, e.1.int? = some d

theorem unwind_of_depths {depth : Value} {d : Int} (hdepth : depth.int? = some d) {stack : Stack}
    (h : HaveDepths stack) : ∃ left, unwind depth stack = .ok left ∧ HaveDepths left := by
  induction stack with
  | nil => exact ⟨[], rfl, h⟩
  | cons e rest ih =>
    obtain ⟨⟨top, htop⟩, hrest⟩ := List.forall_mem_cons.1 h
    obtain ⟨v, label⟩ := e
    simp only [unwind, Value.less_of_int? hdepth htop, ok_bind]
    split
    · exact ih hrest
    · exact ⟨_, rfl, h⟩

theorem enter_of_depths {depth : Value} {d : Int} (hdepth : depth.int? = some d) (next : Nat)
    {stack : Stack} (h : HaveDepths stack) :
    ∃ entered next', enter depth next stack = .ok (entered, next') ∧ HaveDepths entered := by
  have hboth : HaveDepths ((depth, next) :: stack) := List.forall_mem_cons.2 ⟨⟨d, hdepth⟩, h⟩
  cases stack with
  | nil => exact ⟨_, _, rfl, hboth⟩
  | cons e rest =>
    obtain ⟨⟨top, htop⟩, -⟩ := List.forall_mem_cons.1 h
    obtain ⟨v, label⟩ := e
    simp only [enter, Value.less_of_int? htop hdepth, ok_bind]
    split
    · exact ⟨_, _, rfl, hboth⟩
    · exact ⟨_, _, rfl, h⟩

/-- Steps with integer depths get their frame numbers. -/
theorem labelsFrom_of_depths {stack : Stack} (hstack : HaveDepths stack) (next : Nat)
    {steps : List Step} (h : ∀ step ∈ steps, ∃ d, step.depth.int? = some d) :
    ∃ labels, labelsFrom stack next steps = .ok labels := by
  induction steps generalizing stack next with
  | nil => exact ⟨[], rfl⟩
  | cons step steps ih =>
    obtain ⟨⟨d, hstep⟩, hsteps⟩ := List.forall_mem_cons.1 h
    obtain ⟨left, hunwind, hleft⟩ := unwind_of_depths hstep hstack
    obtain ⟨entered, next', henter, hentered⟩ := enter_of_depths hstep next hleft
    obtain ⟨labels, hlabels⟩ := ih hentered next' hsteps
    simp only [labelsFrom, hunwind, henter, hlabels, ok_bind]
    exact ⟨_, rfl⟩

/-- A frame has the depth of one of its steps, or none. -/
theorem depth_ofLabel (steps : List Step) (labels : List Nat) (label : Nat) :
    (ofLabel steps labels label).depth = .null ∨
      ∃ step ∈ steps, (ofLabel steps labels label).depth = step.depth := by
  rw [ofLabel]
  cases hown : (((steps.zip labels).filter (·.2 == label)).map (·.1)).head? with
  | none => exact .inl rfl
  | some step =>
    right
    obtain ⟨pair, hpair, rfl⟩ := List.mem_map.1 (List.mem_of_head? hown)
    exact ⟨pair.1, (List.of_mem_zip (List.mem_filter.1 hpair).1).1, rfl⟩

/-- A trace with integer depths falls into frames whose depths can be put into words. -/
theorem ofSteps_of_depths {steps : List Step} (h : ∀ step ∈ steps, IsDepth step.depth) :
    ∃ frames, ofSteps steps = .ok frames ∧
      ∀ f ∈ frames, ∃ text, f.depth.displayed = .ok text := by
  have hints : ∀ step ∈ steps, ∃ d, step.depth.int? = some d := by
    intro step hstep
    obtain ⟨n, hn, -⟩ := h step hstep
    exact ⟨n, hn ▸ rfl⟩
  obtain ⟨labels, hlabels⟩ := labelsFrom_of_depths (nofun : HaveDepths []) 0 hints
  have hnumbers : Frame.labels steps = .ok labels := hlabels
  refine ⟨_, by rw [ofSteps, hnumbers]; rfl, ?_⟩
  intro f hf
  obtain ⟨label, -, rfl⟩ := List.mem_map.1 hf
  rcases depth_ofLabel steps labels label with hnull | ⟨step, hstep, hdepth⟩
  · rw [hnull]
    exact ⟨_, rfl⟩
  · obtain ⟨n, hn, hwritable⟩ := h step hstep
    refine ⟨(Value.int n).display, ?_⟩
    rw [hdepth, hn, Value.displayed, written, Value.numerals]
    simp only [List.all_cons, hwritable, List.all_nil, Bool.and_true, if_true]

end Frame

end ContractCoverage
