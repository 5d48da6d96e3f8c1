import ContractCoverage.Proofs.Coverage.Additions
import ContractCoverage.Proofs.Coverage.Apart
import ContractCoverage.Proofs.Coverage.Listed
import Mathlib.Data.List.Induction

/-! Slots of branch arms.

The initial fragment of a table has as many slots for the arms of a branch as the table
says it has arms. Registering an arm makes room for it and keeps what there is, while a
declaration of the branch replaces the number of its arms by the one that is declared. So
there is a slot for an arm exactly when some step has made room for it and the branch has
not been declared anew since (`slots_iff`). Hits make room where there is none; that they
never have to is the same as that all arms that they count for have slots
(`arms_have_slots`). -/
namespace ContractCoverage

/-! ### Room for arms -/

namespace Counts

/-- The number of arms that there are counts of. -/
def room (c : Counts) : Nat := (c.branch.map List.length).getD 0

theorem room_add (a b : Counts) : (a + b).room = max a.room b.room := by
  show ((a.branch.merge addCounts b.branch).map List.length).getD 0 = _
  unfold room
  cases a.branch <;> cases b.branch <;> simp [Fragment.length_addCounts]

/-- Adding counts lengthens none when there is room for them. -/
theorem room_add_eq_left_iff {a b : Counts} : (a + b).room = a.room ↔ b.room ≤ a.room := by
  rw [room_add]
  omega

theorem room_under (id k : Ident) (c : Counts) :
    (under id c k).room = if id == k then c.room else 0 := by
  unfold under
  split <;> rfl

theorem room_sum_le_iff {cs : List Counts} {m : Nat} :
    cs.sum.room ≤ m ↔ ∀ c ∈ cs, c.room ≤ m := by
  induction cs with
  | nil => exact iff_of_true (Nat.zero_le m) fun c hc => absurd hc List.not_mem_nil
  | cons c cs ih => rw [List.sum_cons, room_add, Nat.max_le, ih, List.forall_mem_cons]

end Counts

/-- The arms that hits of a target count for: the one that it is and the one that it stands for. -/
def Target.arms (t : Target) : List BranchArm :=
  match t.key with
  | .branch id arm => ⟨id, arm⟩ :: t.parent.toList
  | .statement .. | .function .. => t.parent.toList

theorem BranchArm.room_gain_le_iff {a : BranchArm} (h : 0 ≤ a.arm) (n : Int) (k : Ident) {m : Nat} :
    (a.gain n k).room ≤ m ↔ ((a.branch == k) = true → a.arm < m) := by
  have hlength : ({ branch := some (armHit a.arm n) } : Counts).room = a.arm.toNat + 1 := by
    show (List.replicate a.arm.toNat (0 : Int) ++ [n]).length = _
    rw [List.length_append, List.length_replicate]
    rfl
  rw [gain, Counts.room_under, hlength]
  split
  · next hk =>
    simp only [hk, forall_const]
    omega
  · next hk => simp [hk]

/-- Hits of a target need room for the arms that they count for. -/
theorem Target.room_gain_le_iff {t : Target} (h : t.FromStart) (n : Int) (k : Ident) {m : Nat} :
    (t.gain n k).room ≤ m ↔ ∀ a ∈ t.arms, (a.branch == k) = true → a.arm < m := by
  have hlines : (t.lines.map fun line => lineGain n line k).sum.room ≤ m := by
    refine Counts.room_sum_le_iff.2 fun c hc => ?_
    obtain ⟨line, -, rfl⟩ := List.mem_map.1 hc
    rw [lineGain, Counts.room_under]
    split <;> exact Nat.zero_le m
  have hparent : ((t.parent.map fun a : BranchArm => a.gain n k).getD 0).room ≤ m ↔
      ∀ a ∈ t.parent.toList, (a.branch == k) = true → a.arm < m := by
    cases hp : t.parent with
    | none => exact iff_of_true (Nat.zero_le m) fun a ha => absurd ha List.not_mem_nil
    | some a =>
      rw [Option.map_some, Option.getD_some, Option.toList_some, List.forall_mem_singleton]
      exact BranchArm.room_gain_le_iff (h.2 a hp) n k
  have hplain : ∀ id (c : Counts), c.branch = none → (Counts.under id c k).room ≤ m := by
    intro id c hc
    rw [Counts.room_under, Counts.room, hc]
    split <;> exact Nat.zero_le m
  rw [gain, Counts.room_add, Counts.room_add, Nat.max_le, Nat.max_le, hparent, and_iff_left hlines]
  unfold arms
  cases hkey : t.key with
  | statement id arm => exact and_iff_right (hplain id _ rfl)
  | function id arm => exact and_iff_right (hplain id _ rfl)
  | branch id arm =>
    rw [List.forall_mem_cons]
    exact and_congr_left' (BranchArm.room_gain_le_iff (a := ⟨id, arm⟩) (h.1 id arm hkey) n k)

/-- The arms of a target count from the start when the target says so. -/
theorem Target.FromStart.arm_nonneg {t : Target} (h : t.FromStart) {a : BranchArm}
    (ha : a ∈ t.arms) : 0 ≤ a.arm := by
  have hparent : a ∈ t.parent.toList → 0 ≤ a.arm := fun ha => h.2 a (Option.mem_toList.1 ha)
  unfold arms at ha
  cases hkey : t.key with
  | statement | function =>
    rw [hkey] at ha
    exact hparent ha
  | branch id arm =>
    rw [hkey] at ha
    rcases List.mem_cons.1 ha with rfl | ha
    · exact h.1 id arm hkey
    · exact hparent ha

namespace Fragment

theorem room_counts (f : Fragment) (k : Ident) : (f.counts k).room = (f.armCounts k).length := by
  show ((f.branches.get? k).map List.length).getD 0 = ((f.branches.get? k).getD []).length
  cases f.branches.get? k <;> rfl

/-- Hits that are counted lengthen no counts of arms exactly when there is room for all arms that
they count for. -/
theorem room_hitAll_iff {f g : Fragment} {hits : List (Target × Int)}
    (hstart : ∀ hit ∈ hits, hit.1.FromStart) (h : f.hitAll hits = .ok g) :
    (∀ k, (g.counts k).room = (f.counts k).room) ↔
      ∀ hit ∈ hits, ∀ a ∈ hit.1.arms, a.arm < (f.counts a.branch).room := by
  obtain ⟨g', hg', hcounts⟩ := f.hitAll_of_countable hstart (isCountable_of_hitAll h)
  obtain rfl : g = g' := Except.ok.inj (h.symm.trans hg')
  have hkept : ∀ k, (g.counts k).room = (f.counts k).room ↔
      ∀ hit ∈ hits, ∀ a ∈ hit.1.arms, (a.branch == k) = true → a.arm < (f.counts k).room := by
    intro k
    rw [hcounts, Counts.room_add_eq_left_iff, Counts.room_sum_le_iff, List.forall_mem_map]
    exact forall₂_congr fun hit hmem => Target.room_gain_le_iff (hstart hit hmem) hit.2 k
  constructor
  · intro hall hit hmem a ha
    exact (hkept a.branch).1 (hall a.branch) hit hmem a ha BEq.rfl
  · intro hroom k
    refine (hkept k).2 fun hit hmem a ha hk => ?_
    have hsame : f.counts a.branch = f.counts k := by
      simp only [counts, KeyedList.get?_congr _ hk]
    exact hsame ▸ hroom hit hmem a ha

end Fragment

/-! ### The number of arms -/

namespace Registration

/-- Whether a step declares a branch, with a number of arms that replaces the one it had. -/
def declares (id : Ident) : Registration → Bool
  | .branch id' .. => id' == id
  | _ => false

/-- Whether a step is about a branch. -/
def names (id : Ident) : Registration → Bool
  | .branch id' .. | .arm id' .. => id' == id
  | _ => false

/-- Whether a step makes room for an arm: it declares more arms, or registers this arm or one behind
it. The first step about a branch, unless it declares the branch, makes room for two arms. -/
def reserves (id : Ident) (arm : Int) (named : Bool) : Registration → Bool
  | .branch id' arms .. => id' == id && decide (arm < arms)
  | .arm id' place _ => id' == id && (decide (arm ≤ place) || (!named && decide (arm < 2)))
  | _ => false

/-- The number of arms of a branch after a step, given the number before it. -/
def slots (id : Ident) (old : Option Int) : Registration → Option Int
  | .branch id' arms .. => if id' == id then some arms else old
  | .arm id' place _ => if id' == id then some (max (old.getD 2) (place + 1)) else old
  | _ => old

theorem isSome_slots (id : Ident) (old : Option Int) (step : Registration) :
    (step.slots id old).isSome = (old.isSome || step.names id) := by
  cases step with
  | branch id' => by_cases h : (id' == id) = true <;> simp [slots, names, h]
  | arm id' => by_cases h : (id' == id) = true <;> simp [slots, names, h]
  | statement | function => simp [slots, names]

/-- After a step there is a slot for an arm when the step makes room for it, or when there was one
before and the step does not declare the branch anew. -/
theorem lt_slots_iff (id : Ident) (arm : Int) (old : Option Int) (step : Registration) :
    (∃ n, step.slots id old = some n ∧ arm < n) ↔
      step.reserves id arm old.isSome = true ∨
        (∃ n, old = some n ∧ arm < n) ∧ step.declares id = false := by
  cases step with
  | statement | function => simp [slots, reserves, declares]
  | branch id' => by_cases h : (id' == id) = true <;> simp [slots, reserves, declares, h]
  | arm id' place =>
    by_cases h : (id' == id) = true
    · cases old with
      | none =>
        simp [slots, reserves, declares, h]
        omega
      | some n =>
        simp [slots, reserves, declares, h]
        omega
    · simp [slots, reserves, declares, h]

end Registration

/-- Some step makes room for an arm, and the branch is not declared anew after it. -/
def Reserved (steps : List Registration) (id : Ident) (arm : Int) : Prop :=
  ∃ before step after, steps = before ++ step :: after ∧
    step.reserves id arm (before.any (·.names id)) = true ∧
    ∀ later ∈ after, later.declares id = false

theorem not_reserved_nil (id : Ident) (arm : Int) : ¬ Reserved [] id arm := by
  rintro ⟨before, step, after, h, -, -⟩
  cases before <;> cases h

theorem reserved_concat_iff {steps : List Registration} {step : Registration} {id : Ident}
    {arm : Int} :
    Reserved (steps ++ [step]) id arm ↔
      step.reserves id arm (steps.any (·.names id)) = true ∨
        Reserved steps id arm ∧ step.declares id = false := by
  constructor
  · rintro ⟨before, first, after, hsteps, hreserves, hafter⟩
    rcases List.eq_nil_or_concat after with rfl | ⟨after, last, rfl⟩
    · obtain ⟨rfl, h⟩ := List.append_inj' hsteps rfl
      cases h
      exact .inl hreserves
    · rw [List.concat_eq_append, ← List.cons_append, ← List.append_assoc] at hsteps
      obtain ⟨rfl, h⟩ := List.append_inj' hsteps rfl
      cases h
      rw [List.concat_eq_append, List.forall_mem_append, List.forall_mem_singleton] at hafter
      exact .inr ⟨⟨before, first, after, rfl, hreserves, hafter.1⟩, hafter.2⟩
  · rintro (h | ⟨⟨before, first, after, rfl, hreserves, hafter⟩, h⟩)
    · exact ⟨steps, step, [], rfl, h, fun later hl => absurd hl List.not_mem_nil⟩
    · refine ⟨before, first, after ++ [step], by simp, hreserves, ?_⟩
      rw [List.forall_mem_append, List.forall_mem_singleton]
      exact ⟨hafter, h⟩

namespace RangeTable

/-- The number of arms that a table lists for a branch. -/
def slots (t : RangeTable) (id : Ident) : Option Int := (t.branches.get? id).map (·.1)

theorem branches_of_enroll {t t' : RangeTable} {step : Registration}
    (h : t.enroll step = .ok t') : t'.branches = t.branches := by
  unfold enroll at h
  cases ht : step.target? with
  | none =>
    rw [ht] at h
    cases h
    rfl
  | some found =>
    rw [ht] at h
    obtain ⟨src, target⟩ := found
    simp only at h
    cases hk : src.key with
    | error fault =>
      rw [hk] at h
      cases h
    | ok key =>
      rw [hk] at h
      cases h
      rfl

/-- What a step that succeeds does to the number of arms of a branch. -/
theorem slots_add {t t' : RangeTable} {step : Registration} (h : t.add step = (t', .ok ()))
    (id : Ident) : t'.slots id = step.slots id (t.slots id) := by
  obtain ⟨listed, hlist, henroll⟩ := add_eq_ok_iff.1 h
  unfold slots
  rw [branches_of_enroll henroll]
  cases step with
  | statement | function =>
    simp only [RangeTable.list, bind_eq_ok_iff] at hlist
    obtain ⟨-, -, h⟩ := hlist
    cases h
    rfl
  | branch id' arms kind guard locations =>
    simp only [RangeTable.list, bind_eq_ok_iff] at hlist
    obtain ⟨info, -, -, -, h⟩ := hlist
    cases h
    simp only [KeyedList.get?_insert, Registration.slots]
    split <;> rfl
  | arm id' place src =>
    simp only [RangeTable.list, bind_eq_ok_iff] at hlist
    obtain ⟨-, -, h⟩ := hlist
    cases h
    simp only [KeyedList.get?_insert, Registration.slots, branchEntry]
    split
    · next hid =>
      rw [t.branches.get?_congr hid]
      cases t.branches.get? id <;> rfl
    · rfl

/-- Steps that all succeed do so one after the other. -/
theorem addAll_concat_iff {t t' : RangeTable} {steps : List Registration} {step : Registration} :
    t.addAll (steps ++ [step]) = .ok t' ↔
      ∃ u, t.addAll steps = .ok u ∧ u.add step = (t', .ok ()) := by
  induction steps generalizing t with
  | nil =>
    rw [List.nil_append, addAll]
    cases h : t.add step with
    | mk u answer => cases answer <;> simp [addAll, h]
  | cons first steps ih =>
    rw [List.cons_append, addAll, addAll]
    cases h : t.add first with
    | mk u answer => cases answer <;> simp [ih]

/-- There is a slot for an arm exactly when some step has made room for it and the branch has not
been declared anew since. -/
theorem slots_iff {steps : List Registration} {t : RangeTable}
    (h : RangeTable.empty.addAll steps = .ok t) (id : Ident) :
    (t.slots id).isSome = steps.any (·.names id) ∧
      ∀ arm, (∃ n, t.slots id = some n ∧ arm < n) ↔ Reserved steps id arm := by
  induction steps using List.reverseRecOn generalizing t with
  | nil =>
    cases h
    refine ⟨rfl, fun arm => iff_of_false ?_ (not_reserved_nil id arm)⟩
    rintro ⟨n, hn, -⟩
    cases hn
  | append_singleton steps step ih =>
    obtain ⟨u, hu, hstep⟩ := addAll_concat_iff.1 h
    obtain ⟨hnamed, hslots⟩ := ih hu
    rw [slots_add hstep]
    refine ⟨?_, fun arm => ?_⟩
    · rw [Registration.isSome_slots, hnamed, List.any_append, List.any_cons, List.any_nil,
        Bool.or_false]
    · rw [Registration.lt_slots_iff, hslots, hnamed, reserved_concat_iff]

/-! ### Slots of the initial fragment -/

theorem get?_branches_initial (t : RangeTable) (path : Option String) (id : Ident) :
    (t.initial path).branches.get? id =
      (t.slots id).map fun n => List.replicate n.toNat (0 : Int) := by
  show (t.branches.map fun branch => List.replicate branch.1.toNat (0 : Int)).get? id = _
  rw [KeyedList.get?_map, slots, Option.map_map]
  rfl

/-- The initial fragment has a slot for an arm that counts from the start when the table has one. -/
theorem lt_room_initial_iff (t : RangeTable) (path : Option String) (id : Ident) {arm : Int}
    (harm : 0 ≤ arm) :
    arm < ((t.initial path).counts id).room ↔ ∃ n, t.slots id = some n ∧ arm < n := by
  show arm < ((((t.initial path).branches.get? id).map List.length).getD 0 : Nat) ↔ _
  rw [get?_branches_initial]
  cases t.slots id with
  | none =>
    simp
    omega
  | some n =>
    simp
    omega

/-- A branch whose arm a range resolves to is named by some step. -/
theorem names_of_resolve {steps : List Registration} {t : RangeTable}
    (h : RangeTable.empty.addAll steps = .ok t) {r : Range} {target : Target}
    (htarget : target ∈ t.resolve r) {id : Ident} {arm : Int}
    (hkey : target.key = .branch id arm) : steps.any (·.names id) = true := by
  obtain ⟨e, he, rfl⟩ := mem_registered_of_resolve htarget
  rw [(addAll_of_ok h).1] at he
  obtain ⟨step, hstep, he⟩ := List.mem_flatMap.1 he
  refine List.any_eq_true.2 ⟨step, hstep, ?_⟩
  obtain ⟨src, hsrc⟩ : ∃ src, step.target? = some (src, e.2) := by
    unfold Registration.entries at he
    split at he
    · cases he
    · next src target ht =>
      split at he
      · rw [List.mem_singleton.1 he]
        exact ⟨src, ht⟩
      · cases he
  cases step with
  | branch => cases hsrc
  | statement | function =>
    rw [← congrArg Prod.snd (Option.some.inj hsrc)] at hkey
    cases hkey
  | arm id' place src =>
    rw [← congrArg Prod.snd (Option.some.inj hsrc)] at hkey
    cases hkey
    exact BEq.rfl

/-- **Slots of arms.** A table that has been made by steps that all succeeded lists the branch of
every arm that some range resolves to, and has a slot for the arm exactly when the arm is reserved.
No hits of targets that ranges resolve to ever lengthen the counts of a branch exactly when all arms
that these hits count for are reserved. -/
theorem arms_have_slots {steps : List Registration} {t : RangeTable}
    (h : RangeTable.empty.addAll steps = .ok t) (hstart : t.FromStart) (path : Option String) :
    (∀ r target id arm, target ∈ t.resolve r → target.key = .branch id arm →
        ∃ counts, (t.initial path).branches.get? id = some counts ∧
          (arm < counts.length ↔ Reserved steps id arm)) ∧
      ((∀ hits total, (∀ hit ∈ hits, ∃ r, hit.1 ∈ t.resolve r) →
          (t.initial path).hitAll hits = .ok total →
          ∀ id, (total.armCounts id).length = ((t.initial path).armCounts id).length) ↔
        ∀ r target, target ∈ t.resolve r → target.IsCountable →
          ∀ a ∈ target.arms, Reserved steps a.branch a.arm) := by
  have hstarts : ∀ r target, target ∈ t.resolve r → target.FromStart := by
    intro r target htarget
    obtain ⟨e, he, rfl⟩ := mem_registered_of_resolve htarget
    exact hstart e he
  have hslot : ∀ id {arm : Int}, 0 ≤ arm →
      (arm < ((t.initial path).counts id).room ↔ Reserved steps id arm) := fun id arm harm =>
    (lt_room_initial_iff t path id harm).trans ((slots_iff h id).2 arm)
  refine ⟨fun r target id arm htarget hkey => ?_, fun hkeeps r target htarget hcountable a ha => ?_,
    fun hall hits total hhits htotal id => ?_⟩
  · obtain ⟨n, hn⟩ := Option.isSome_iff_exists.1
      ((slots_iff h id).1.trans (names_of_resolve h htarget hkey))
    have hget := get?_branches_initial t path id
    rw [hn] at hget
    refine ⟨_, hget, ?_⟩
    rw [← hslot id ((hstarts r target htarget).1 id arm hkey), Fragment.room_counts,
      Fragment.armCounts, hget]
    rfl
  · have hone : ∀ hit ∈ [(target, (1 : Int))], hit.1.FromStart :=
      List.forall_mem_singleton.2 (hstarts r target htarget)
    obtain ⟨total, htotal⟩ := (Fragment.exists_hitAll_iff hone (t.initial path)).2
      (List.forall_mem_singleton.2 hcountable)
    have hroom := (Fragment.room_hitAll_iff hone htotal).1 fun id => by
      rw [Fragment.room_counts, Fragment.room_counts]
      exact hkeeps _ total (List.forall_mem_singleton.2 ⟨r, htarget⟩) htotal id
    exact (hslot a.branch ((hstarts r target htarget).arm_nonneg ha)).1
      (hroom _ (List.mem_singleton.2 rfl) a ha)
  · have hstartHits : ∀ hit ∈ hits, hit.1.FromStart := fun hit hmem =>
      let ⟨r, hr⟩ := hhits hit hmem
      hstarts r hit.1 hr
    rw [← Fragment.room_counts, ← Fragment.room_counts]
    refine (Fragment.room_hitAll_iff hstartHits htotal).2 (fun hit hmem a ha => ?_) id
    obtain ⟨r, hr⟩ := hhits hit hmem
    exact (hslot a.branch ((hstarts r hit.1 hr).arm_nonneg ha)).2
      (hall r hit.1 hr (Fragment.isCountable_of_hitAll htotal hit hmem) a ha)

/-- A range of a source. -/
def armRange : Range := { offset := some 0, length := some 2, fileId := some 0 }

/-- The sixth arm of a branch is registered, and then the branch is declared, with two arms. -/
def declaredLate : List Registration :=
  [.arm (.ofInt 1) 5 (.range armRange), .branch (.ofInt 1)]

/-- The range resolves to an arm that has no slot, so a hit of it makes room. -/
theorem not_slotted_declaredLate :
    ∃ t, RangeTable.empty.addAll declaredLate = .ok t ∧
      ∃ target ∈ t.resolve armRange, target.key.arm? = some 5 ∧
        (t.initial none).armCounts target.key.id = [0, 0] ∧
        (((t.initial none).hit target 1).1.armCounts target.key.id) = [0, 0, 0, 0, 0, 1] := by
  refine ⟨_, rfl, _, List.mem_cons_self .., rfl, ?_, ?_⟩ <;> decide +kernel

/-- A branch of three arms, its last arm and a statement that stands for the first one. -/
def declaredFirst : List Registration :=
  [.branch (.ofInt 1) 3, .arm (.ofInt 1) 2 (.range armRange),
    .statement (.ofInt 7) (.range armRange) none (some ⟨.ofInt 1, 0⟩)]

/-- The declaration makes room for the arm and for the one that the statement stands for. -/
theorem arms_have_slots_declaredFirst :
    ∃ t, RangeTable.empty.addAll declaredFirst = .ok t ∧ t.FromStart ∧
      (t.resolve armRange).length = 2 ∧
      ∀ hits total, (∀ hit ∈ hits, ∃ r, hit.1 ∈ t.resolve r) →
        (t.initial none).hitAll hits = .ok total → ∀ id,
          (total.armCounts id).length = ((t.initial none).armCounts id).length := by
  obtain ⟨t, ht, hregistered⟩ : ∃ t, RangeTable.empty.addAll declaredFirst = .ok t ∧
      t.registered = [(armRange.key, ⟨.branch (.ofInt 1) 2, none, none⟩),
        (armRange.key, ⟨.statement (.ofInt 7), none, some ⟨.ofInt 1, 0⟩⟩)] := ⟨_, rfl, rfl⟩
  have hstart : t.FromStart := by
    rw [FromStart, hregistered]
    refine List.forall_mem_cons.2 ⟨⟨?_, nofun⟩, List.forall_mem_singleton.2 ⟨nofun, ?_⟩⟩
    · rintro id arm ⟨⟩
      decide
    · rintro a ⟨⟩
      decide
  have hreserved : ∀ arm : Int, arm < 3 → Reserved declaredFirst (.ofInt 1) arm := by
    intro arm harm
    refine ⟨[], .branch (.ofInt 1) 3, _, rfl, ?_, ?_⟩
    · simp [Registration.reserves, harm]
    · simp [Registration.declares]
  refine ⟨t, ht, hstart, ?_, ((arms_have_slots ht hstart none).2).2 fun r target htarget _ => ?_⟩
  · simp only [resolve, targetsOf, hregistered]
    decide
  · obtain ⟨e, he, rfl⟩ := mem_registered_of_resolve htarget
    rw [hregistered, List.mem_cons, List.mem_singleton] at he
    rcases he with rfl | rfl
    · exact List.forall_mem_singleton.2 (hreserved 2 (by decide))
    · exact List.forall_mem_singleton.2 (hreserved 0 (by decide))

end RangeTable

end ContractCoverage
