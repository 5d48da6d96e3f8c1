import ContractCoverage.Proofs.Data.Lookup
import ContractCoverage.Proofs.Tree.Links

/-! What the table of a syntax tree lists.

A visit lists at most one thing, what the node itself stands for, and registers it under
the identifier that it has been listed with (`register_adds`). A link leads to a branch
that has been listed before the nodes of its arms are visited. So whatever is registered
in the table of a tree is listed there, and so is every branch that a target stands for
an arm of, with two arms (`complete_of_index`). -/
namespace ContractCoverage

namespace RangeTable

/-- Whether a table lists the statement, the branch or the function of a key. -/
def Lists (t : RangeTable) : TargetKey → Prop
  | .statement id _ => t.statements.contains id = true
  | .branch id _ => t.branches.contains id = true
  | .function id _ => t.functions.contains id = true

/-- Whether the branch that a link leads to is listed, where there is a link. -/
def Knows (t : RangeTable) (link : Option BranchArm) : Prop :=
  ∀ a, link = some a → t.Lists (.branch a.branch a.arm)

/-- What is registered in a table is listed, together with the branches of all links, and every
branch has two arms. -/
structure Complete (t : RangeTable) : Prop where
  targets : ∀ e ∈ t.registered, t.Lists e.2.key
  links : ∀ e ∈ t.registered, t.Knows e.2.parent
  arms : ∀ k entry, t.branches.get? k = some entry → entry.1 = 2

theorem complete_empty : Complete .empty :=
  ⟨fun _ he => absurd he List.not_mem_nil, fun _ he => absurd he List.not_mem_nil,
    fun _ _ h => by cases h⟩

theorem Knows.of_lists {t t' : RangeTable} {link : Option BranchArm} (h : t.Knows link)
    (hmore : ∀ key, t.Lists key → t'.Lists key) : t'.Knows link := fun a ha => hmore _ (h a ha)

end RangeTable

namespace Tree
open Node

/-! ### One visit -/

/-- What a visit does to a table: what it lists, and what it registers. -/
inductive Adds (t : RangeTable) (link : Option BranchArm) (node : Value) : RangeTable → Prop
  | statement (id : Ident) (range : Range) (span : Span) (hkind : kindOf node ≠ .ok .branch) :
    Adds t link node ({ t with statements := t.statements.insert id (some span) }.register
      range.key ⟨.statement id, some span, link⟩)
  | function (id : Ident) (range : Range) (name : Value) (span : Span)
      (hkind : kindOf node ≠ .ok .branch) :
    Adds t link node ({ t with
      functions := t.functions.insert id (some (RangeTable.functionInfo name span)) }.register
      range.key ⟨.function id, some span, none⟩)
  | branch (id : Ident) (info : Option BranchInfo) (hid : identOf node = .ok id) :
    Adds t link node { t with branches := t.branches.insert id (2, info) }
  | nothing (hkind : kindOf node ≠ .ok .branch) : Adds t link node t

section
variable {lines : LineTable} {t t' : RangeTable} {link : Option BranchArm} {node : Value}

theorem add_of_addAll {step : Registration} (h : t.addAll [step] = .ok t') :
    ∃ listed, t.list step = .ok listed ∧ listed.enroll step = .ok t' := by
  rw [RangeTable.addAll] at h
  split at h
  · next added he =>
    cases h
    exact RangeTable.add_eq_ok_iff.1 he
  · cases h

theorem addStatement_adds (hkind : kindOf node ≠ .ok .branch)
    (h : addStatement lines t link node = .ok t') : Adds t link node t' := by
  simp only [addStatement, bind_eq_ok_iff] at h
  obtain ⟨range, -, span, -, id, -, h⟩ := h
  obtain ⟨listed, hlist, henroll⟩ := add_of_addAll h
  simp only [RangeTable.list, bind_eq_ok_iff] at hlist
  obtain ⟨_, -, hlist⟩ := hlist
  cases hlist
  cases henroll
  exact .statement id range span hkind

theorem addFunction_adds (hkind : kindOf node ≠ .ok .branch)
    (h : addFunction lines t node = .ok t') : Adds t link node t' := by
  simp only [addFunction, bind_eq_ok_iff] at h
  obtain ⟨whole, -, header, -, name, -, span, -, id, -, h⟩ := h
  obtain ⟨listed, hlist, henroll⟩ := add_of_addAll h
  simp only [RangeTable.list, bind_eq_ok_iff] at hlist
  obtain ⟨_, -, hlist⟩ := hlist
  cases hlist
  cases henroll
  exact .function id whole name span hkind

theorem addBranch_adds (h : addBranch lines t node = .ok t') : Adds t link node t' := by
  simp only [addBranch, bind_eq_ok_iff] at h
  obtain ⟨_, -, _, -, _, -, trueSpan, -, falseBody, -, h⟩ := h
  have hadded : ∃ id guard arms, identOf node = .ok id ∧
      t.addAll [.branch id 2 "if" guard arms] = .ok t' := by
    cases falseBody with
    | none =>
      simp only [bind_eq_ok_iff] at h
      obtain ⟨_, -, _, -, _, -, id, hid, h⟩ := h
      exact ⟨id, _, _, eq_ok_of_lift hid, h⟩
    | some body =>
      simp only [bind_eq_ok_iff] at h
      obtain ⟨_, -, _, -, _, -, _, -, id, hid, h⟩ := h
      exact ⟨id, _, _, eq_ok_of_lift hid, h⟩
  obtain ⟨id, guard, arms, hid, h⟩ := hadded
  obtain ⟨listed, hlist, henroll⟩ := add_of_addAll h
  simp only [RangeTable.list, bind_eq_ok_iff] at hlist
  obtain ⟨info, -, _, -, hlist⟩ := hlist
  cases hlist
  cases henroll
  exact .branch id info hid

/-- A visit that succeeds does one of four things to the table. -/
theorem register_adds (h : register lines t link node = .ok t') : Adds t link node t' := by
  simp only [register, bind_eq_ok_iff] at h
  obtain ⟨kind, hkind, h⟩ := h
  cases kind with
  | branch => exact addBranch_adds h
  | function => exact addFunction_adds (by simp [hkind]) h
  | loop => exact addStatement_adds (by simp [hkind]) h
  | statement => exact addStatement_adds (by simp [hkind]) h
  | container =>
    cases h
    exact .nothing (by simp [hkind])
  | block =>
    cases h
    exact .nothing (by simp [hkind])
  | other =>
    cases h
    exact .nothing (by simp [hkind])

/-- What is listed remains so. -/
theorem Adds.lists (h : Adds t link node t') (key : TargetKey) (hkey : t.Lists key) :
    t'.Lists key := by
  cases h with
  | nothing => exact hkey
  | statement id range span =>
    cases key with
    | statement => exact (KeyedList.contains_insert ..).trans (Bool.or_eq_true_iff.2 (.inr hkey))
    | branch => exact hkey
    | function => exact hkey
  | function id range name span =>
    cases key with
    | statement => exact hkey
    | branch => exact hkey
    | function => exact (KeyedList.contains_insert ..).trans (Bool.or_eq_true_iff.2 (.inr hkey))
  | branch id info =>
    cases key with
    | statement => exact hkey
    | branch => exact (KeyedList.contains_insert ..).trans (Bool.or_eq_true_iff.2 (.inr hkey))
    | function => exact hkey

/-- A target that is registered behind others, when it is listed and so is the branch that it is
linked to. -/
theorem complete_register (ht : t.Complete) {key : RangeKey} {target : Target}
    (hkey : t.Lists target.key) (hparent : t.Knows target.parent) :
    (t.register key target).Complete where
  targets e he := by
    rcases List.mem_append.1 he with he | he
    · exact ht.targets e he
    · rw [List.mem_singleton.1 he]
      exact hkey
  links e he := by
    rcases List.mem_append.1 he with he | he
    · exact ht.links e he
    · rw [List.mem_singleton.1 he]
      exact hparent
  arms := ht.arms

/-- A table that lists more, and registers the same. -/
theorem complete_of_lists (ht : t.Complete) (hregistered : t'.registered = t.registered)
    (hlists : ∀ key, t.Lists key → t'.Lists key)
    (harms : ∀ k entry, t'.branches.get? k = some entry → entry.1 = 2) : t'.Complete where
  targets e he := hlists _ (ht.targets e (hregistered ▸ he))
  links e he := (ht.links e (hregistered ▸ he)).of_lists hlists
  arms := harms

theorem Adds.complete (h : Adds t link node t') (ht : t.Complete) (hlink : t.Knows link) :
    t'.Complete := by
  have hlists := h.lists
  cases h with
  | nothing => exact ht
  | statement id range span =>
    refine complete_register ?_ (KeyedList.contains_insert_self ..) (hlink.of_lists hlists)
    exact complete_of_lists ht rfl hlists ht.arms
  | function id range name span =>
    refine complete_register ?_ (KeyedList.contains_insert_self ..) nofun
    exact complete_of_lists ht rfl hlists ht.arms
  | branch id info =>
    refine complete_of_lists ht rfl hlists fun k entry hentry => ?_
    rw [KeyedList.get?_insert] at hentry
    split at hentry
    · cases hentry
      rfl
    · exact ht.arms k entry hentry

/-- A branch that has been visited is listed. -/
theorem Adds.branch_listed (h : Adds t link node t') (hkind : kindOf node = .ok .branch)
    {id : Ident} (hid : identOf node = .ok id) : t'.branches.contains id = true := by
  cases h with
  | nothing hother => exact absurd hkind hother
  | statement _ _ _ hother => exact absurd hkind hother
  | function _ _ _ _ hother => exact absurd hkind hother
  | branch own info hown =>
    obtain rfl : own = id := Except.ok.inj (hown.symm.trans hid)
    exact KeyedList.contains_insert_self ..

end

/-! ### Links that are handed on -/

/-- The nodes that come next are linked to the branch that has just been visited, or like the
block that they are in. -/
theorem knows_children {t : RangeTable} {node : Value} {link : Option BranchArm}
    {next : List Pending} (h : children node link = .ok next) (hlink : t.Knows link)
    (hbranch : kindOf node = .ok .branch → ∀ id, identOf node = .ok id →
      t.branches.contains id = true) : ∀ p ∈ next, t.Knows p.2 := by
  refine forall_children h nofun (fun _ => hlink) fun hkind id hid => ?_
  have harm : ∀ arm : Int, t.Knows (some ⟨id, arm⟩) := by
    intro arm a ha
    cases ha
    exact hbranch hkind id hid
  exact ⟨harm 0, harm 1⟩

/-! ### The whole walk -/

theorem complete_walk {lines : LineTable} {t t' : RangeTable} {pending : List Pending}
    (ht : t.Complete) (hpending : ∀ p ∈ pending, t.Knows p.2)
    (h : walk lines t pending = .ok t') : t'.Complete := by
  obtain ⟨order, hvisits⟩ := visits_of_walk h
  induction hvisits generalizing t with
  | nil =>
    rw [walk] at h
    cases h
    exact ht
  | cons _ hchildren _ ih =>
    obtain ⟨own, next, hregister, hnext, hwalk⟩ := walk_cons.1 h
    obtain rfl := Except.ok.inj (hchildren.symm.trans hnext)
    obtain ⟨hlink, hrest⟩ := List.forall_mem_cons.1 hpending
    have hadds := register_adds hregister
    -- The links of the nodes that are still to be visited are part of the invariant: a branch is
    -- listed when it is visited, and its arms come after that.
    refine ih (hadds.complete ht hlink) (List.forall_mem_append.2 ⟨?_, fun p hp => ?_⟩) hwalk
    · exact knows_children hchildren (hlink.of_lists hadds.lists)
        fun hkind id hid => hadds.branch_listed hkind hid
    · exact (hrest p hp).of_lists hadds.lists

/-- The table of a syntax tree lists whatever it registers. -/
theorem complete_of_index {lines : LineTable} {tree : Value} {t : RangeTable}
    (h : index lines tree = .ok t) : t.Complete :=
  complete_walk RangeTable.complete_empty
    (List.forall_mem_singleton.2 fun a ha => by cases ha) h

end Tree

end ContractCoverage
