import ContractCoverage.Proofs.Trace.Depths
import ContractCoverage.Proofs.Trace.Nesting
import Mathlib.Data.List.Nodup
import Mathlib.Data.List.Perm.Basic

/-! The calls of a trace.

Every step has one number, so the places of the steps of each number share out all places
(`perm_places`), whatever the depths are. Where the depths are integers, the active calls get
deeper inwards (`Descends`), and a call stays active exactly as long as no step goes below its
depth (`label_iff_of_active`). So two steps are in one frame exactly when they are at one depth and
no step between them is below it (`ofSteps_calls`), however far the depth jumps. -/
namespace ContractCoverage.Frame

/-! ### The places of a frame -/

/-- The places of the steps that carry a number. -/
def placesOf (labels : List Nat) (label : Nat) : List Nat :=
  (List.range labels.length).filter (labels[·]? == some label)

/-- The number of frames. -/
def frameCount (labels : List Nat) : Nat := labels.foldl (fun n label => max n (label + 1)) 0

/-- The places of the steps of every frame. -/
def places (labels : List Nat) : List (List Nat) :=
  (List.range (frameCount labels)).map (placesOf labels)

theorem mem_placesOf {labels : List Nat} {label i : Nat} :
    i ∈ placesOf labels label ↔ labels[i]? = some label := by
  simp only [placesOf, List.mem_filter, List.mem_range, beq_iff_eq, and_iff_right_iff_imp]
  intro h
  exact (List.getElem?_eq_some_iff.1 h).1

theorem placesOf_cons (l : Nat) (labels : List Nat) (label : Nat) :
    placesOf (l :: labels) label =
      if l = label then 0 :: (placesOf labels label).map Nat.succ
      else (placesOf labels label).map Nat.succ := by
  have hrest : ((List.range labels.length).map Nat.succ).filter
      (fun i => (l :: labels)[i]? == some label) = (placesOf labels label).map Nat.succ := by
    rw [List.filter_map]
    rfl
  rw [placesOf, List.length_cons, List.range_succ_eq_map, List.filter_cons, hrest]
  simp

/-- The steps of a number are those at its places. -/
theorem own_eq_filterMap (label : Nat) {steps : List Step} {labels : List Nat}
    (h : labels.length = steps.length) :
    own label steps labels = (placesOf labels label).filterMap (steps[·]?) := by
  induction steps generalizing labels with
  | nil =>
    obtain rfl := List.length_eq_zero_iff.1 h
    rfl
  | cons step steps ih =>
    match labels, h with
    | l :: labels, h =>
      have hshift : ((placesOf labels label).map Nat.succ).filterMap ((step :: steps)[·]?) =
          own label steps labels := by
        rw [ih (Nat.succ.inj h), List.filterMap_map]
        rfl
      rw [own_cons, placesOf_cons]
      split
      · rw [List.filterMap_cons, hshift]
        rfl
      · rw [hshift]

theorem mem_places {labels own : List Nat} :
    own ∈ places labels ↔ ∃ label < frameCount labels, placesOf labels label = own := by
  simp [places]

theorem lt_frameCount {labels : List Nat} {label : Nat} (h : label ∈ labels) :
    label < frameCount labels :=
  (lt_count_iff labels 0 label).2 (.inr ⟨label, h, Nat.le_refl label⟩)

/-- Every place is the place of one step of one frame. -/
theorem perm_places (labels : List Nat) :
    (places labels).flatten.Perm (List.range labels.length) := by
  have hnodup : (places labels).flatten.Nodup := by
    refine List.nodup_flatten.2 ⟨?_, ?_⟩
    · intro own hown
      obtain ⟨label, -, rfl⟩ := mem_places.1 hown
      exact List.nodup_range.filter _
    · refine List.pairwise_map.2 (List.nodup_range.imp ?_)
      intro label label' hne i hi hi'
      exact hne (Option.some.inj ((mem_placesOf.1 hi).symm.trans (mem_placesOf.1 hi')))
  refine (List.perm_ext_iff_of_nodup hnodup List.nodup_range).2 fun i => ?_
  rw [List.mem_flatten, List.mem_range]
  constructor
  · rintro ⟨own, hown, hi⟩
    obtain ⟨label, -, rfl⟩ := mem_places.1 hown
    exact (List.getElem?_eq_some_iff.1 (mem_placesOf.1 hi)).1
  · intro hi
    have hlabel : labels[i]? = some labels[i] := List.getElem?_eq_getElem hi
    have hcount := lt_frameCount (List.mem_of_getElem? hlabel)
    exact ⟨_, mem_places.2 ⟨labels[i], hcount, rfl⟩, mem_placesOf.2 hlabel⟩

/-! ### Integer depths -/

/-- The depths of the active calls are integers, and every call is deeper than the calls that it is
nested in. -/
structure Descends (stack : Stack) : Prop where
  ints : HaveDepths stack
  deeper : stack.Pairwise fun inner outer =>
    ∀ d c, inner.1.int? = some d → outer.1.int? = some c → c < d

theorem descends_nil : Descends [] := ⟨nofun, .nil⟩

/-- Calls that are nested deeper are left and the others remain in order. -/
theorem Descends.kept {left kept : Stack} (h : Descends (left ++ kept)) : Descends kept :=
  ⟨fun e he => h.ints e (List.mem_append_right left he), (List.pairwise_append.1 h.deeper).2.1⟩

/-- Integer depths that are level are equal. -/
theorem Level.eq_of_ints {v w : Value} {m n : Int} (h : Level v w) (hv : v.int? = some m)
    (hw : w.int? = some n) : m = n := by
  obtain ⟨hlow, hhigh⟩ := h
  rw [Value.less_of_int? hv hw] at hlow
  rw [Value.less_of_int? hw hv] at hhigh
  have hlow := of_decide_eq_false (Except.ok.inj hlow)
  have hhigh := of_decide_eq_false (Except.ok.inj hhigh)
  omega

section Moves
variable {stack stack' : Stack} {next next' label : Nat} {depth : Value} {c : Int}
  (hmoves : Moves stack next depth stack' next' label) (hstack : Descends stack)
  (hdepth : depth.int? = some c)
include hmoves hstack hdepth

/-- A step leaves the calls that it is below, and then its own call, which may be new, is the
innermost one. -/
theorem Moves.parts : ∃ left kept own, own.int? = some c ∧ stack' = (own, label) :: kept ∧
    (∀ e ∈ left, ∀ d, e.1.int? = some d → c < d) ∧
    (∀ e ∈ kept, ∀ d, e.1.int? = some d → d < c) ∧
    (stack = left ++ kept ∧ label = next ∨ stack = left ++ (own, label) :: kept) := by
  have deeper : ∀ {e : Value × Nat}, depth.less e.1 = .ok true →
      ∀ d, e.1.int? = some d → c < d := by
    intro e he d hd
    rw [Value.less_of_int? hdepth hd] at he
    exact of_decide_eq_true (Except.ok.inj he)
  cases hmoves with
  | @entered left kept hsplit hleft hkept =>
    refine ⟨left, kept, depth, hdepth, rfl, fun e he => deeper (hleft e he), ?_, .inl ⟨hsplit, rfl⟩⟩
    cases kept with
    | nil => exact nofun
    | cons top kept =>
      -- The innermost call that is kept is higher than the step, and the others are higher than it.
      obtain ⟨hints, hdeeper⟩ := (hsplit ▸ hstack).kept
      obtain ⟨t, ht⟩ := hints top (List.mem_cons_self ..)
      have hlow := (hkept top rfl).2
      rw [Value.less_of_int? ht hdepth] at hlow
      have htop : t < c := of_decide_eq_true (Except.ok.inj hlow)
      intro e he d hd
      rcases List.mem_cons.1 he with rfl | he
      · rw [ht] at hd
        exact Option.some.inj hd ▸ htop
      · exact Int.lt_trans ((List.pairwise_cons.1 hdeeper).1 e he t d ht hd) htop
  | @stayed left kept top label hsplit hleft hlevel =>
    obtain ⟨hints, hdeeper⟩ := (hsplit ▸ hstack).kept
    obtain ⟨t, ht⟩ := hints (top, label) (List.mem_cons_self ..)
    obtain rfl := hlevel.eq_of_ints ht hdepth
    exact ⟨left, kept, top, ht, rfl, fun e he => deeper (hleft e he),
      fun e he d => (List.pairwise_cons.1 hdeeper).1 e he t d ht, .inr hsplit⟩

theorem Moves.descends : Descends stack' := by
  obtain ⟨left, kept, own, hown, rfl, -, hkept, hbefore⟩ := hmoves.parts hstack hdepth
  have hrest : Descends kept := by
    rcases hbefore with ⟨hsplit, -⟩ | hsplit
    · exact (hsplit ▸ hstack).kept
    · have hwith := (hsplit ▸ hstack).kept
      exact (show Descends ([(own, label)] ++ kept) from hwith).kept
  refine ⟨List.forall_mem_cons.2 ⟨⟨c, hown⟩, hrest.ints⟩, List.pairwise_cons.2 ⟨?_, hrest.deeper⟩⟩
  intro e he d b hd hb
  rw [hown] at hd
  exact Option.some.inj hd ▸ hkept e he b hb

/-- The call of a step is active after it, at the depth of the step. -/
theorem Moves.own_active : ∃ v, v.int? = some c ∧ (v, label) ∈ stack' := by
  obtain ⟨-, -, own, hown, rfl, -⟩ := hmoves.parts hstack hdepth
  exact ⟨own, hown, List.mem_cons_self ..⟩

/-- A call stays active when the step is not below it. -/
theorem Moves.mem_iff {e : Value × Nat} (he : e ∈ stack) {d : Int} (hd : e.1.int? = some d) :
    e ∈ stack' ↔ d ≤ c := by
  obtain ⟨left, kept, own, hown, rfl, hleft, hkept, hbefore⟩ := hmoves.parts hstack hdepth
  constructor
  · intro he'
    rcases List.mem_cons.1 he' with rfl | he'
    · rw [hown] at hd
      exact Int.le_of_eq (Option.some.inj hd).symm
    · exact Int.le_of_lt (hkept e he' d hd)
  · intro hle
    have hnot : e ∉ left := fun hmem => absurd (hleft e hmem d hd) (by omega)
    rcases hbefore with ⟨rfl, -⟩ | rfl
    · exact List.mem_cons_of_mem _ ((List.mem_append.1 he).resolve_left hnot)
    · exact (List.mem_append.1 he).resolve_left hnot

/-- A step belongs to the active call that has its depth. -/
theorem Moves.label_iff (hnumbered : Numbered stack next) {v : Value} {l : Nat}
    (hv : (v, l) ∈ stack) {d : Int} (hd : v.int? = some d) : label = l ↔ d = c := by
  obtain ⟨left, kept, own, hown, -, hleft, hkept, hbefore⟩ := hmoves.parts hstack hdepth
  constructor
  · rintro rfl
    rcases hbefore with ⟨-, rfl⟩ | rfl
    · exact absurd (hnumbered.lt _ hv) (Nat.lt_irrefl _)
    · obtain rfl := hnumbered.eq_of_label hv
        (List.mem_append_right left (List.mem_cons_self ..))
      rw [hown] at hd
      exact (Option.some.inj hd).symm
  · rintro rfl
    have hnotLeft : (v, l) ∉ left := fun hmem => Int.lt_irrefl _ (hleft _ hmem d hd)
    have hnotKept : (v, l) ∉ kept := fun hmem => Int.lt_irrefl _ (hkept _ hmem d hd)
    rcases hbefore with ⟨rfl, -⟩ | rfl
    · exact absurd ((List.mem_append.1 hv).resolve_left hnotLeft) hnotKept
    · have hcall := (List.mem_append.1 hv).resolve_left hnotLeft
      cases (List.mem_cons.1 hcall).resolve_right hnotKept
      rfl

end Moves

/-- Steps at certain depths, which are integers. -/
def AtDepths (steps : List Step) (depths : List Int) : Prop :=
  steps.map (·.depth.int?) = depths.map some

theorem AtDepths.cons {step : Step} {steps : List Step} {depths : List Int}
    (h : AtDepths (step :: steps) depths) :
    ∃ c rest, depths = c :: rest ∧ step.depth.int? = some c ∧ AtDepths steps rest := by
  match depths, h with
  | c :: rest, h =>
    obtain ⟨hstep, hrest⟩ := List.cons.inj h
    exact ⟨c, rest, rfl, hstep, hrest⟩

theorem AtDepths.ints {steps : List Step} {depths : List Int} (h : AtDepths steps depths) :
    ∀ step ∈ steps, ∃ d, step.depth.int? = some d := by
  intro step hstep
  have hmem : step.depth.int? ∈ depths.map some := h ▸ List.mem_map_of_mem hstep
  obtain ⟨d, -, hd⟩ := List.mem_map.1 hmem
  exact ⟨d, hd.symm⟩

theorem AtDepths.length_eq {steps : List Step} {depths : List Int} (h : AtDepths steps depths) :
    steps.length = depths.length := by
  simpa using congrArg List.length h

/-- No step from the first place up to the second is below a depth. -/
def NoneBelow (depths : List Int) (d : Int) (first last : Nat) : Prop :=
  ∀ k, first ≤ k → k < last → ∀ c, depths[k]? = some c → d ≤ c

theorem noneBelow_succ {depths : List Int} {d c : Int} {first last : Nat} :
    NoneBelow (c :: depths) d (first + 1) (last + 1) ↔ NoneBelow depths d first last := by
  constructor
  · intro h k hk hlast
    exact h (k + 1) (Nat.succ_le_succ hk) (Nat.succ_lt_succ hlast)
  · intro h k hk hlast
    obtain ⟨k, rfl⟩ := Nat.exists_eq_succ_of_ne_zero (Nat.ne_zero_of_lt hk)
    exact h k (Nat.le_of_succ_le_succ hk) (Nat.lt_of_succ_lt_succ hlast)

theorem noneBelow_cons {depths : List Int} {d c : Int} {last : Nat} :
    NoneBelow (c :: depths) d 0 (last + 1) ↔ d ≤ c ∧ NoneBelow depths d 0 last := by
  constructor
  · intro h
    refine ⟨h 0 (Nat.le_refl 0) (Nat.succ_pos last) c rfl, fun k _ hlast => ?_⟩
    exact h (k + 1) (Nat.zero_le _) (Nat.succ_lt_succ hlast)
  · intro ⟨hle, h⟩ k _ hlast b hb
    cases k with
    | zero => exact Option.some.inj hb ▸ hle
    | succ k => exact h k (Nat.zero_le k) (Nat.lt_of_succ_lt_succ hlast) b hb

/-! ### Steps of one call -/

section Labels
variable {stack : Stack} {next : Nat} {steps : List Step} {labels : List Nat} {depths : List Int}

/-- A step belongs to a call that is active now exactly when it has the depth of the call and no
step before it is below that. -/
theorem label_iff_of_active (h : labelsFrom stack next steps = .ok labels)
    (hnumbered : Numbered stack next) (hstack : Descends stack) (hdepths : AtDepths steps depths)
    {v : Value} {label : Nat} (hactive : (v, label) ∈ stack) {d : Int} (hd : v.int? = some d)
    (j : Nat) :
    labels[j]? = some label ↔ depths[j]? = some d ∧ NoneBelow depths d 0 j := by
  induction steps generalizing stack next labels depths j with
  | nil =>
    cases h
    obtain rfl := List.map_eq_nil_iff.1 hdepths.symm
    exact ⟨nofun, fun hj => nomatch hj.1⟩
  | cons step steps ih =>
    obtain ⟨stack', next', l, rest, hmoves, hrest, rfl⟩ := labelsFrom_cons_eq_ok h
    obtain ⟨c, others, rfl, hc, hothers⟩ := hdepths.cons
    have hnumbered' := hmoves.numbered hnumbered
    have hlt := hnumbered.lt _ hactive
    cases j with
    | zero =>
      have hnone : NoneBelow (c :: others) d 0 0 := fun k _ hk => absurd hk (Nat.not_lt_zero k)
      have hlabel := hmoves.label_iff hstack hc hnumbered hactive hd
      simpa [hnone, eq_comm] using hlabel
    | succ j =>
      rw [List.getElem?_cons_succ, List.getElem?_cons_succ, noneBelow_cons]
      by_cases hle : d ≤ c
      · have hkept := (hmoves.mem_iff hstack hc hactive hd).2 hle
        rw [ih hrest hnumbered' (hmoves.descends hstack hc) hothers hkept]
        simp only [hle, true_and]
      · -- The call has been left, and its number is not given to a step again.
        have hleft : ∀ w, (w, label) ∉ stack' := by
          intro w hw
          obtain rfl := hnumbered.eq_of_label (hmoves.mem_of_mem hw hlt) hactive
          exact hle ((hmoves.mem_iff hstack hc hactive hd).1 hw)
        have hnone := own_of_left hrest hnumbered' (Nat.lt_of_lt_of_le hlt hmoves.le_next) hleft
        have hnot : label ∉ rest := fun hmem => own_ne_nil (length_labelsFrom hrest) hmem hnone
        simp only [hle, false_and, and_false, iff_false]
        exact fun hj => hnot (List.mem_of_getElem? hj)

/-- Two steps belong to one call exactly when they have one depth and no step between them is below
it. -/
theorem label_eq_iff (h : labelsFrom stack next steps = .ok labels)
    (hnumbered : Numbered stack next) (hstack : Descends stack) (hdepths : AtDepths steps depths)
    {i j : Nat} (hij : i < j) {a : Nat} {d : Int} (ha : labels[i]? = some a)
    (hd : depths[i]? = some d) :
    labels[j]? = some a ↔ depths[j]? = some d ∧ NoneBelow depths d (i + 1) j := by
  induction steps generalizing stack next labels depths i j with
  | nil =>
    cases h
    cases ha
  | cons step steps ih =>
    obtain ⟨stack', next', l, rest, hmoves, hrest, rfl⟩ := labelsFrom_cons_eq_ok h
    obtain ⟨c, others, rfl, hc, hothers⟩ := hdepths.cons
    have hnumbered' := hmoves.numbered hnumbered
    have hstack' := hmoves.descends hstack hc
    obtain ⟨j, rfl⟩ := Nat.exists_eq_succ_of_ne_zero (Nat.ne_zero_of_lt hij)
    rw [List.getElem?_cons_succ, List.getElem?_cons_succ, noneBelow_succ]
    cases i with
    | zero =>
      obtain rfl : l = a := Option.some.inj ha
      obtain rfl : c = d := Option.some.inj hd
      obtain ⟨v, hv, hactive⟩ := hmoves.own_active hstack hc
      exact label_iff_of_active hrest hnumbered' hstack' hothers hactive hv j
    | succ i => exact ih hrest hnumbered' hstack' hothers (Nat.lt_of_succ_lt_succ hij) ha hd

end Labels

/-! ### The frames of a trace -/

/-- Frames are the calls of steps at certain depths: every frame is given by the places of its
steps. -/
structure AreCalls (steps : List Step) (depths : List Int) (frames : List Frame)
    (places : List (List Nat)) : Prop where
  /-- Every step is in exactly one frame. -/
  covers : places.flatten.Perm (List.range steps.length)
  /-- A frame has the steps at its places, -/
  steps_eq : frames.map (·.steps) = places.map fun own => own.filterMap (steps[·]?)
  /-- in their order in the trace, -/
  ordered : ∀ own ∈ places, own.Pairwise (· < ·)
  /-- and at least one. -/
  nonempty : ∀ own ∈ places, own ≠ []
  /-- All steps of a frame have the depth of the frame. -/
  level : ∀ f ∈ frames, ∃ d, f.depth.int? = some d ∧ ∀ step ∈ f.steps, step.depth.int? = some d
  /-- Frames come in the order of their first steps. -/
  entered : places.Pairwise fun own later => ∃ i ∈ own, ∀ j ∈ later, i < j
  /-- Two steps are in one frame when they have one depth and no step between them is below it. -/
  together : ∀ i j d e, i < j → depths[i]? = some d → depths[j]? = some e →
    ((∃ own ∈ places, i ∈ own ∧ j ∈ own) ↔ d = e ∧ NoneBelow depths d (i + 1) j)

/-- Two steps are in one frame when they carry one number. -/
theorem exists_mem_places_iff {labels : List Nat} {i j : Nat} (hi : i < labels.length) :
    (∃ own ∈ places labels, i ∈ own ∧ j ∈ own) ↔ labels[j]? = some labels[i] := by
  have hlabel := List.getElem?_eq_getElem hi
  constructor
  · intro ⟨own, hown, hmem, hmem'⟩
    obtain ⟨label, -, rfl⟩ := mem_places.1 hown
    rw [mem_placesOf] at hmem hmem'
    rw [hmem', ← hmem, hlabel]
  · intro hj
    have hcount := lt_frameCount (List.mem_of_getElem? hlabel)
    exact ⟨_, mem_places.2 ⟨labels[i], hcount, rfl⟩, mem_placesOf.2 hlabel, mem_placesOf.2 hj⟩

section Frames
variable {steps : List Step} {labels : List Nat} {depths : List Int}
  (hlabels : Frame.labels steps = .ok labels)
include hlabels

theorem placesOf_ne_nil {label : Nat} (h : label < frameCount labels) :
    placesOf labels label ≠ [] := by
  obtain ⟨l, hl, hle⟩ := ((lt_count_iff labels 0 label).1 h).resolve_left (Nat.not_lt_zero label)
  have hmem := mem_of_le hlabels numbered_nil hl (Nat.zero_le label) hle
  obtain ⟨i, hi⟩ := List.mem_iff_getElem?.1 hmem
  exact List.ne_nil_of_mem (mem_placesOf.2 hi)

theorem pairwise_places :
    (places labels).Pairwise fun own later => ∃ i ∈ own, ∀ j ∈ later, i < j := by
  refine List.pairwise_map.2 (List.pairwise_lt_range.imp_of_mem ?_)
  intro a b _ hb hab
  have hlater := placesOf_ne_nil hlabels (List.mem_range.1 hb)
  have hordered : (placesOf labels b).Pairwise (· < ·) := List.pairwise_lt_range.filter _
  cases hplaces : placesOf labels b with
  | nil => exact absurd hplaces hlater
  | cons first rest =>
    rw [hplaces] at hordered
    have hfirst : labels[first]? = some b :=
      mem_placesOf.1 (hplaces ▸ List.mem_cons_self ..)
    obtain ⟨i, hi, hlt⟩ := exists_before hlabels numbered_nil hfirst (Nat.zero_le a) hab
    refine ⟨i, mem_placesOf.2 hi, List.forall_mem_cons.2 ⟨hlt, fun j hj => ?_⟩⟩
    exact Nat.lt_trans hlt ((List.pairwise_cons.1 hordered).1 j hj)

end Frames

/-- All steps of a frame have the depth of the frame. -/
theorem depth_of_mem_ofSteps {steps : List Step} {depths : List Int} {frames : List Frame}
    (hdepths : AtDepths steps depths) (h : ofSteps steps = .ok frames) {f : Frame}
    (hf : f ∈ frames) :
    ∃ d, f.depth.int? = some d ∧ ∀ step ∈ f.steps, step.depth.int? = some d := by
  obtain ⟨first, rest, rfl, hsteps, hlevel⟩ := level_of_mem_ofSteps h hf
  obtain ⟨d, hd⟩ := hdepths.ints first (hsteps first (List.mem_cons_self ..))
  refine ⟨d, hd, List.forall_mem_cons.2 ⟨hd, fun step hstep => ?_⟩⟩
  obtain ⟨c, hc⟩ := hdepths.ints step (hsteps step (List.mem_cons_of_mem _ hstep))
  rw [hc, (hlevel step hstep).eq_of_ints hd hc]

/-- **The calls of a trace.** Steps at integer depths fall into frames, and these are the calls. -/
theorem ofSteps_calls {steps : List Step} {depths : List Int} (h : AtDepths steps depths) :
    ∃ frames places, ofSteps steps = .ok frames ∧ AreCalls steps depths frames places := by
  obtain ⟨labels, hlabels⟩ := labelsFrom_of_depths (nofun : HaveDepths []) 0 h.ints
  have hsteps : ofSteps steps =
      .ok ((List.range (frameCount labels)).map (ofLabel steps labels)) := by
    rw [ofSteps, show Frame.labels steps = .ok labels from hlabels]
    rfl
  have hlength := length_labelsFrom hlabels
  refine ⟨_, places labels, hsteps, ?_, ?_, ?_, ?_, ?_, ?_, ?_⟩
  · exact hlength ▸ perm_places labels
  · rw [places, List.map_map, List.map_map]
    exact List.map_congr_left fun label _ => own_eq_filterMap label hlength
  · intro own hown
    obtain ⟨label, -, rfl⟩ := mem_places.1 hown
    exact List.pairwise_lt_range.filter _
  · intro own hown
    obtain ⟨label, hlabel, rfl⟩ := mem_places.1 hown
    exact placesOf_ne_nil hlabels hlabel
  · exact fun f hf => depth_of_mem_ofSteps h hsteps hf
  · exact pairwise_places hlabels
  · intro i j d e hij hd he
    have hi : i < labels.length := by
      rw [hlength, h.length_eq]
      exact (List.getElem?_eq_some_iff.1 hd).1
    rw [exists_mem_places_iff hi,
      label_eq_iff hlabels numbered_nil descends_nil h hij (List.getElem?_eq_getElem hi) hd, he,
      Option.some.injEq, eq_comm]

/-- A trace that goes three calls deeper at once, returns to a depth between and goes deeper
again. -/
def jumps : List Step := [1, 4, 2, 4, 1].map fun depth => { pc := .int 0, depth := .int depth }

/-- The step at depth two is a call of its own and ends the first call at depth four. -/
theorem ofSteps_calls_jumps : AtDepths jumps [1, 4, 2, 4, 1] ∧
    ∃ frames places, ofSteps jumps = .ok frames ∧
      AreCalls jumps [1, 4, 2, 4, 1] frames places ∧ frames.map size = [2, 1, 1, 1] := by
  have hdepths : AtDepths jumps [1, 4, 2, 4, 1] := rfl
  have hsizes : (ofSteps jumps).map (·.map size) = .ok [2, 1, 1, 1] := rfl
  obtain ⟨frames, places, hframes, hcalls⟩ := ofSteps_calls hdepths
  rw [hframes] at hsizes
  exact ⟨hdepths, frames, places, hframes, hcalls, Except.ok.inj hsizes⟩

end ContractCoverage.Frame
