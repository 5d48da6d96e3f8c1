import ContractCoverage.Proofs.Data.Chain
import ContractCoverage.Trace.Frame
import Mathlib.Data.List.Nodup

/-! Frames by themselves.

What a step does to the active calls is one of two things (`Moves`): it leaves the deeper
ones, and then goes on with the innermost call that is left, if neither is deeper than the
other, or enters a new one. So all steps of a frame are level with its first step
(`level_of_mem_ofSteps`), whatever came between them, and depths need not even be numbers that
can be put in order. A frame that is taken for a trace is therefore a single frame again
(`ofSteps_steps`). -/
namespace ContractCoverage.Frame

/-- Neither of two depths is less than the other. -/
def Level (v w : Value) : Prop := v.less w = .ok false ∧ w.less v = .ok false

/-! ### One step -/

/-- What a step of some depth does to the active calls, where `next` is the number of the next call
to be entered: the calls that are active then, the number after that, and the number of the step's
own call. -/
inductive Moves (stack : Stack) (next : Nat) (depth : Value) : Stack → Nat → Nat → Prop
  | entered {left kept : Stack} (hstack : stack = left ++ kept)
      (hleft : ∀ e ∈ left, depth.less e.1 = .ok true)
      (hkept : ∀ e ∈ kept.head?, depth.less e.1 = .ok false ∧ e.1.less depth = .ok true) :
    Moves stack next depth ((depth, next) :: kept) (next + 1) next
  | stayed {left kept : Stack} {top : Value} {label : Nat}
      (hstack : stack = left ++ (top, label) :: kept)
      (hleft : ∀ e ∈ left, depth.less e.1 = .ok true) (hlevel : Level top depth) :
    Moves stack next depth ((top, label) :: kept) next label

theorem unwind_eq_ok {depth : Value} {stack kept : Stack} (h : unwind depth stack = .ok kept) :
    ∃ left, stack = left ++ kept ∧ (∀ e ∈ left, depth.less e.1 = .ok true) ∧
      ∀ e ∈ kept.head?, depth.less e.1 = .ok false := by
  induction stack with
  | nil =>
    cases h
    exact ⟨[], rfl, nofun, nofun⟩
  | cons e rest ih =>
    obtain ⟨deeper, hdeeper, h⟩ := bind_eq_ok_iff.1 h
    cases deeper with
    | true =>
      obtain ⟨left, rfl, hleft, hkept⟩ := ih h
      exact ⟨e :: left, rfl, List.forall_mem_cons.2 ⟨hdeeper, hleft⟩, hkept⟩
    | false =>
      cases h
      refine ⟨[], rfl, nofun, ?_⟩
      rintro _ ⟨⟩
      exact hdeeper

/-- Taking one step apart. -/
theorem labelsFrom_cons_eq_ok {stack : Stack} {next : Nat} {step : Step} {steps : List Step}
    {labels : List Nat} (h : labelsFrom stack next (step :: steps) = .ok labels) :
    ∃ stack' next' label rest, Moves stack next step.depth stack' next' label ∧
      labelsFrom stack' next' steps = .ok rest ∧ labels = label :: rest := by
  obtain ⟨kept, hunwind, h⟩ := bind_eq_ok_iff.1 h
  obtain ⟨⟨stack', next'⟩, henter, h⟩ := bind_eq_ok_iff.1 h
  obtain ⟨rest, hrest, h⟩ := bind_eq_ok_iff.1 h
  cases h
  obtain ⟨left, hstack, hleft, hhead⟩ := unwind_eq_ok hunwind
  refine ⟨stack', next', _, rest, ?_, hrest, rfl⟩
  match kept, henter with
  | [], henter =>
    cases henter
    exact .entered hstack hleft nofun
  | (top, label) :: kept, henter =>
    have hlow : step.depth.less top = .ok false := hhead _ rfl
    obtain ⟨deeper, hdeeper, henter⟩ := bind_eq_ok_iff.1 henter
    cases deeper with
    | true =>
      cases henter
      refine .entered hstack hleft ?_
      rintro _ ⟨⟩
      exact ⟨hlow, hdeeper⟩
    | false =>
      cases henter
      exact .stayed hstack hleft ⟨hdeeper, hlow⟩

/-! ### The numbers of the active calls -/

/-- The active calls have different numbers, all of which have been given out. -/
structure Numbered (stack : Stack) (next : Nat) : Prop where
  nodup : (stack.map (·.2)).Nodup
  lt : ∀ e ∈ stack, e.2 < next

theorem numbered_nil : Numbered [] 0 := ⟨List.nodup_nil, nofun⟩

theorem Numbered.eq_of_label {stack : Stack} {next label : Nat} {v w : Value}
    (h : Numbered stack next) (hv : (v, label) ∈ stack) (hw : (w, label) ∈ stack) : v = w :=
  congrArg Prod.fst (List.inj_on_of_nodup_map h.nodup hv hw rfl)

/-- Leaving calls leaves the numbers of the others. -/
theorem Numbered.kept {left kept : Stack} {next : Nat} (h : Numbered (left ++ kept) next) :
    Numbered kept next where
  nodup := by
    have hnodup := h.nodup
    rw [List.map_append] at hnodup
    exact (List.nodup_append.1 hnodup).2.1
  lt e he := h.lt e (List.mem_append_right left he)

/-- Entering a call gives it the next number. -/
theorem Numbered.push {stack : Stack} {next : Nat} (h : Numbered stack next) (depth : Value) :
    Numbered ((depth, next) :: stack) (next + 1) where
  nodup := by
    refine List.nodup_cons.2 ⟨fun hmem => ?_, h.nodup⟩
    obtain ⟨e, he, heq⟩ := List.mem_map.1 hmem
    have hlt := h.lt e he
    simp only at heq
    omega
  lt := List.forall_mem_cons.2
    ⟨Nat.lt_succ_self next, fun e he => Nat.lt_succ_of_lt (h.lt e he)⟩

section Moves
variable {stack stack' : Stack} {next next' label : Nat} {depth : Value}

theorem Moves.numbered (hmoves : Moves stack next depth stack' next' label)
    (h : Numbered stack next) : Numbered stack' next' := by
  cases hmoves with
  | entered hstack _ _ =>
    rw [hstack] at h
    exact h.kept.push depth
  | stayed hstack _ _ =>
    rw [hstack] at h
    exact h.kept

/-- A step that enters no call belongs to an active one, with which it is level. -/
theorem Moves.stayed_of_lt (hmoves : Moves stack next depth stack' next' label)
    (h : label < next) : next' = next ∧
      ∃ top, (top, label) ∈ stack ∧ (top, label) ∈ stack' ∧ Level top depth := by
  cases hmoves with
  | entered => exact absurd h (Nat.lt_irrefl next)
  | @stayed _ _ top _ hstack _ hlevel =>
    refine ⟨rfl, top, ?_, List.mem_cons_self .., hlevel⟩
    rw [hstack]
    exact List.mem_append_right _ (List.mem_cons_self ..)

/-- A step that enters a call is the first of it. -/
theorem Moves.entered_of_le (hmoves : Moves stack next depth stack' next' label)
    (hnumbered : Numbered stack next) (h : next ≤ label) :
    label = next ∧ next' = next + 1 ∧ (depth, next) ∈ stack' := by
  cases hmoves with
  | entered => exact ⟨rfl, rfl, List.mem_cons_self ..⟩
  | stayed hstack _ _ =>
    rw [hstack] at hnumbered
    have hlt := hnumbered.lt _ (List.mem_append_right _ (List.mem_cons_self ..))
    exact absurd h (Nat.not_le.2 hlt)

theorem Moves.le_next (hmoves : Moves stack next depth stack' next' label) : next ≤ next' := by
  cases hmoves with
  | entered => exact Nat.le_succ next
  | stayed => exact Nat.le_refl next

/-- No call becomes active again once it has been left. -/
theorem Moves.mem_of_mem (hmoves : Moves stack next depth stack' next' label) {e : Value × Nat}
    (he : e ∈ stack') (hlt : e.2 < next) : e ∈ stack := by
  cases hmoves with
  | entered hstack _ _ =>
    rw [hstack]
    rcases List.mem_cons.1 he with rfl | he
    · exact absurd hlt (Nat.lt_irrefl next)
    · exact List.mem_append_right _ he
  | stayed hstack _ _ =>
    rw [hstack]
    exact List.mem_append_right _ he

end Moves

/-! ### The steps of one number -/

/-- The steps that carry a number. -/
def own (label : Nat) (steps : List Step) (labels : List Nat) : List Step :=
  ((steps.zip labels).filter (·.2 == label)).map (·.1)

theorem own_cons (label l : Nat) (step : Step) (steps : List Step) (labels : List Nat) :
    own label (step :: steps) (l :: labels) =
      if l = label then step :: own label steps labels else own label steps labels := by
  by_cases h : l = label <;> simp [own, h]

section Labels
variable {stack : Stack} {next : Nat} {steps : List Step} {labels : List Nat}

/-- A call that has been left has no more steps. -/
theorem own_of_left (h : labelsFrom stack next steps = .ok labels) (hnumbered : Numbered stack next)
    {label : Nat} (hlt : label < next) (hleft : ∀ depth, (depth, label) ∉ stack) :
    own label steps labels = [] := by
  induction steps generalizing stack next labels with
  | nil => rfl
  | cons step steps ih =>
    obtain ⟨stack', next', l, rest, hmoves, hrest, rfl⟩ := labelsFrom_cons_eq_ok h
    have hne : l ≠ label := by
      rintro rfl
      obtain ⟨-, top, htop, -⟩ := hmoves.stayed_of_lt hlt
      exact hleft top htop
    rw [own_cons, if_neg hne]
    exact ih hrest (hmoves.numbered hnumbered) (Nat.lt_of_lt_of_le hlt hmoves.le_next)
      fun depth hmem => hleft depth (hmoves.mem_of_mem hmem hlt)

/-- All further steps of an active call are level with it. -/
theorem level_of_active (h : labelsFrom stack next steps = .ok labels)
    (hnumbered : Numbered stack next) {depth : Value} {label : Nat}
    (hactive : (depth, label) ∈ stack) :
    ∀ step ∈ own label steps labels, Level depth step.depth := by
  induction steps generalizing stack next labels with
  | nil => exact nofun
  | cons step steps ih =>
    obtain ⟨stack', next', l, rest, hmoves, hrest, rfl⟩ := labelsFrom_cons_eq_ok h
    have hlt := hnumbered.lt _ hactive
    have hnumbered' := hmoves.numbered hnumbered
    rw [own_cons]
    split
    · next hl =>
      subst hl
      obtain ⟨-, top, htop, htop', hlevel⟩ := hmoves.stayed_of_lt hlt
      obtain rfl : top = depth := hnumbered.eq_of_label htop hactive
      exact List.forall_mem_cons.2 ⟨hlevel, ih hrest hnumbered' htop'⟩
    · -- The call goes on being active, or it is left for good.
      by_cases hkept : ∃ v, (v, label) ∈ stack'
      · obtain ⟨v, hv⟩ := hkept
        obtain rfl : v = depth := hnumbered.eq_of_label (hmoves.mem_of_mem hv hlt) hactive
        exact ih hrest hnumbered' hv
      · have hnone := own_of_left hrest hnumbered' (Nat.lt_of_lt_of_le hlt hmoves.le_next)
          fun v hv => hkept ⟨v, hv⟩
        rw [hnone]
        exact nofun

/-- The steps of a call that is still to be entered are level with the first of them. -/
theorem level_of_fresh (h : labelsFrom stack next steps = .ok labels)
    (hnumbered : Numbered stack next) {label : Nat} (hle : next ≤ label) {first : Step}
    {rest : List Step} (hown : own label steps labels = first :: rest) :
    ∀ step ∈ rest, Level first.depth step.depth := by
  induction steps generalizing stack next labels with
  | nil => cases hown
  | cons step steps ih =>
    obtain ⟨stack', next', l, labels, hmoves, hrest, rfl⟩ := labelsFrom_cons_eq_ok h
    have hnumbered' := hmoves.numbered hnumbered
    rw [own_cons] at hown
    split at hown
    · next hl =>
      subst hl
      obtain ⟨rfl, -, hentered⟩ := hmoves.entered_of_le hnumbered hle
      cases hown
      exact level_of_active hrest hnumbered' hentered
    · next hl =>
      refine ih hrest hnumbered' ?_ hown
      by_cases hlt : l < next
      · rw [(hmoves.stayed_of_lt hlt).1]
        exact hle
      · obtain ⟨hentered, hnext, -⟩ := hmoves.entered_of_le hnumbered (Nat.not_lt.1 hlt)
        omega

/-- Calls are entered in the order of their numbers: a step of a new call comes after a step of
every call with a number between. -/
theorem exists_before (h : labelsFrom stack next steps = .ok labels)
    (hnumbered : Numbered stack next) {j l label : Nat} (hl : labels[j]? = some l)
    (hle : next ≤ label) (hlabel : label < l) : ∃ i, labels[i]? = some label ∧ i < j := by
  induction steps generalizing stack next labels j with
  | nil =>
    cases h
    cases hl
  | cons step steps ih =>
    obtain ⟨stack', next', first, rest, hmoves, hrest, rfl⟩ := labelsFrom_cons_eq_ok h
    have hfirst : first < next ∧ next' = next ∨ first = next ∧ next' = next + 1 := by
      by_cases hlt : first < next
      · exact .inl ⟨hlt, (hmoves.stayed_of_lt hlt).1⟩
      · obtain ⟨hentered, hnext, -⟩ := hmoves.entered_of_le hnumbered (Nat.not_lt.1 hlt)
        exact .inr ⟨hentered, hnext⟩
    cases j with
    | zero =>
      obtain rfl : first = l := Option.some.inj hl
      omega
    | succ j =>
      by_cases hnew : label = first
      · exact ⟨0, congrArg some hnew.symm, Nat.succ_pos j⟩
      · obtain ⟨i, hi, hij⟩ := ih hrest (hmoves.numbered hnumbered) hl (by omega)
        exact ⟨i + 1, hi, Nat.succ_lt_succ hij⟩

/-- No number is left out. -/
theorem mem_of_le (h : labelsFrom stack next steps = .ok labels) (hnumbered : Numbered stack next)
    {l label : Nat} (hl : l ∈ labels) (hle : next ≤ label) (hlabel : label ≤ l) :
    label ∈ labels := by
  rcases Nat.lt_or_eq_of_le hlabel with hlt | rfl
  · obtain ⟨j, hj⟩ := List.mem_iff_getElem?.1 hl
    obtain ⟨i, hi, -⟩ := exists_before h hnumbered hj hle hlt
    exact List.mem_of_getElem? hi
  · exact hl

theorem length_labelsFrom (h : labelsFrom stack next steps = .ok labels) :
    labels.length = steps.length := by
  induction steps generalizing stack next labels with
  | nil =>
    cases h
    rfl
  | cons step steps ih =>
    obtain ⟨stack', next', first, rest, -, hrest, rfl⟩ := labelsFrom_cons_eq_ok h
    rw [List.length_cons, List.length_cons, ih hrest]

end Labels

/-! ### Frames -/

/-- The number of frames is just above all their numbers. -/
theorem lt_count_iff (labels : List Nat) (n label : Nat) :
    label < labels.foldl (fun n l => max n (l + 1)) n ↔ label < n ∨ ∃ l ∈ labels, label ≤ l := by
  induction labels generalizing n with
  | nil => simp
  | cons l labels ih =>
    rw [List.foldl_cons, ih, List.exists_mem_cons_iff, ← or_assoc]
    refine or_congr_left ?_
    omega

/-- A number that has been given to a step has steps. -/
theorem own_ne_nil {steps : List Step} {labels : List Nat} (hlength : labels.length = steps.length)
    {label : Nat} (h : label ∈ labels) : own label steps labels ≠ [] := by
  induction steps generalizing labels with
  | nil =>
    rw [List.length_nil, List.length_eq_zero_iff] at hlength
    rw [hlength] at h
    cases h
  | cons step steps ih =>
    match labels, hlength with
    | l :: labels, hlength =>
      rw [own_cons]
      by_cases hl : l = label
      · rw [if_pos hl]
        exact List.cons_ne_nil _ _
      · rw [if_neg hl]
        exact ih (Nat.succ.inj hlength) ((List.mem_cons.1 h).resolve_left (Ne.symm hl))

/-- Every frame has a first step, with which the others are level. -/
theorem level_of_mem_ofSteps {steps : List Step} {frames : List Frame}
    (h : ofSteps steps = .ok frames) {f : Frame} (hf : f ∈ frames) :
    ∃ first rest, f = ⟨first.depth, first :: rest⟩ ∧ (∀ step ∈ f.steps, step ∈ steps) ∧
      ∀ step ∈ rest, Level first.depth step.depth := by
  obtain ⟨labels, hlabels, h⟩ := bind_eq_ok_iff.1 h
  cases h
  obtain ⟨label, hlabel, rfl⟩ := List.mem_map.1 hf
  rw [List.mem_range, lt_count_iff] at hlabel
  obtain ⟨l, hl, hle⟩ := hlabel.resolve_left (Nat.not_lt_zero label)
  have hmem := mem_of_le hlabels numbered_nil hl (Nat.zero_le label) hle
  have hsteps : ∀ step ∈ own label steps labels, step ∈ steps := by
    intro step hstep
    obtain ⟨pair, hpair, rfl⟩ := List.mem_map.1 hstep
    exact (List.of_mem_zip (List.mem_filter.1 hpair).1).1
  match hown : own label steps labels with
  | [] => exact absurd hown (own_ne_nil (length_labelsFrom hlabels) hmem)
  | first :: rest =>
    have hframe : ofLabel steps labels label = ⟨first.depth, first :: rest⟩ := by
      show Frame.mk (((own label steps labels).head?.map (·.depth)).getD .null)
        (own label steps labels) = _
      rw [hown]
      rfl
    rw [hframe]
    exact ⟨first, rest, rfl, hown ▸ hsteps,
      level_of_fresh hlabels numbered_nil (Nat.zero_le label) hown⟩

/-- Steps that are level with an active call all belong to it. -/
theorem labelsFrom_of_level {depth : Value} {label next : Nat} {steps : List Step}
    (h : ∀ step ∈ steps, Level depth step.depth) :
    labelsFrom [(depth, label)] next steps = .ok (List.replicate steps.length label) := by
  induction steps with
  | nil => rfl
  | cons step steps ih =>
    obtain ⟨⟨hdeeper, hlower⟩, hrest⟩ := List.forall_mem_cons.1 h
    have hunwind : unwind step.depth [(depth, label)] = .ok [(depth, label)] := by
      simp only [unwind, hlower, ok_bind]
      rfl
    have henter : enter step.depth next [(depth, label)] = .ok ([(depth, label)], next) := by
      simp only [enter, hdeeper, ok_bind]
      rfl
    rw [labelsFrom, hunwind, ok_bind, henter, ok_bind]
    simp only [ih hrest, ok_bind]
    rfl

theorem own_replicate (steps : List Step) (label : Nat) :
    own label steps (List.replicate steps.length label) = steps := by
  induction steps with
  | nil => rfl
  | cons step steps ih => rw [List.length_cons, List.replicate_succ, own_cons, if_pos rfl, ih]

/-- **A frame by itself.** The steps of a frame, taken for a trace, make that one frame. -/
theorem ofSteps_steps {steps : List Step} {frames : List Frame} (h : ofSteps steps = .ok frames)
    {f : Frame} (hf : f ∈ frames) : ofSteps f.steps = .ok [f] := by
  obtain ⟨first, rest, rfl, -, hlevel⟩ := level_of_mem_ofSteps h hf
  have hlabels : labels (first :: rest) = .ok (List.replicate (first :: rest).length 0) := by
    show labelsFrom [(first.depth, 0)] 1 rest >>= _ = _
    rw [labelsFrom_of_level hlevel]
    rfl
  have hcount :
      (List.replicate (first :: rest).length 0).foldl (fun n l => max n (l + 1)) 0 = 1 := by
    have hone := lt_count_iff (List.replicate (first :: rest).length 0) 0 0
    have htwo := lt_count_iff (List.replicate (first :: rest).length 0) 0 1
    simp only [List.mem_replicate] at hone htwo
    have hfirst := hone.2 (.inr ⟨0, ⟨Nat.succ_ne_zero _, rfl⟩, Nat.le_refl 0⟩)
    have hlast := mt htwo.1 (by omega)
    omega
  have hframe : ofLabel (first :: rest) (List.replicate (first :: rest).length 0) 0 =
      ⟨first.depth, first :: rest⟩ := by
    show Frame.mk (((own 0 _ _).head?.map (·.depth)).getD .null) (own 0 _ _) = _
    rw [own_replicate]
    rfl
  rw [ofSteps, hlabels, ok_bind]
  simp only [hcount]
  show Except.ok [ofLabel _ _ 0] = _
  rw [hframe]

end ContractCoverage.Frame
