import ContractCoverage.Proofs.Tree.Arms

/-! The links in the table of a syntax tree.

Links are handed out by branches only, one for each of their two arms, and only loops and
statements keep them. So every target of a derived table is a statement or a function, and
one that stands for an arm stands for the first or the second (`registered_of_index`). When
the branches have different identifiers, no two targets stand for the same arm, whatever
arm that is (`linked_cases`). -/
namespace ContractCoverage.Tree
open Node

/-- A link, if there is one, leads to the first or the second arm of its branch. -/
def Paired (link : Option BranchArm) : Prop := ∀ a, link = some a → a.arm = 0 ∨ a.arm = 1

theorem paired_none : Paired none := fun _ h => by cases h

theorem paired_children {node : Value} {link : Option BranchArm} {next : List Pending}
    (h : children node link = .ok next) (hlink : Paired link) : ∀ p ∈ next, Paired p.2 := by
  refine forall_children h paired_none (fun _ => hlink) fun _ ident _ => ⟨?_, ?_⟩
  · intro a ha
    cases ha
    exact .inl rfl
  · intro a ha
    cases ha
    exact .inr rfl

/-- Targets of a derived table: statements and functions, of which only the former stand for
arms. -/
def IsDerived (t : Target) : Prop :=
  t.key.isBranch = false ∧ Paired t.parent ∧ (t.parent ≠ none → t.key.kind = "s")

theorem derived_entries {lines : LineTable} {t t' : RangeTable} {link : Option BranchArm}
    {node : Value} (h : register lines t link node = .ok t') (hlink : Paired link) :
    ∀ e ∈ entries lines (node, link), IsDerived e.2 := by
  obtain ⟨kind, steps, -, hasks, hentries⟩ := entries_of_asks h
  rw [hentries]
  cases hasks with
  | function id range name span =>
    exact List.forall_mem_singleton.2 ⟨rfl, paired_none, fun hne => absurd rfl hne⟩
  | loop id range span => exact List.forall_mem_singleton.2 ⟨rfl, hlink, fun _ => rfl⟩
  | statement id range span => exact List.forall_mem_singleton.2 ⟨rfl, hlink, fun _ => rfl⟩
  | branch => exact fun e he => absurd he List.not_mem_nil
  | container => exact fun e he => absurd he List.not_mem_nil
  | block => exact fun e he => absurd he List.not_mem_nil
  | other => exact fun e he => absurd he List.not_mem_nil

theorem derived_additions {lines : LineTable} {pending order : List Pending}
    (h : Visits lines pending order) (hpending : ∀ p ∈ pending, Paired p.2) :
    ∀ e ∈ additions lines order, IsDerived e.2 := by
  induction h with
  | nil => exact fun e he => absurd he List.not_mem_nil
  | cons hregister hchildren _ ih =>
    obtain ⟨hfirst, hrest⟩ := List.forall_mem_cons.1 hpending
    have hnext := paired_children hchildren hfirst
    rw [additions, List.flatMap_cons]
    refine List.forall_mem_append.2 ⟨derived_entries hregister hfirst, ih ?_⟩
    exact List.forall_mem_append.2 ⟨hnext, hrest⟩

theorem branchId?_eq_some {node : Value} {link : Option BranchArm} {ident : Ident}
    (h : branchId? (node, link) = some ident) :
    kindOf node = .ok .branch ∧ identOf node = .ok ident := by
  unfold branchId? at h
  split at h
  · next hkind hfound =>
    cases h
    exact ⟨hkind, hfound⟩
  · cases h

theorem standsFor_iff {a : BranchArm} {t : Target} : t.standsFor a = true ↔
    ∃ parent, t.parent = some parent ∧ (parent.branch == a.branch) = true ∧
      parent.arm = a.arm := by
  unfold Target.standsFor
  cases t.parent <;> simp

theorem standsFor_congr {i j : Ident} (h : (i == j) = true) (arm : Int) (t : Target) :
    t.standsFor ⟨i, arm⟩ = t.standsFor ⟨j, arm⟩ := by
  apply Bool.eq_iff_iff.2
  simp only [standsFor_iff, BEq.congr_right h]

theorem linked_congr {i j : Ident} (h : (i == j) = true) (arm : Int)
    (es : List (RangeKey × Target)) : linked ⟨i, arm⟩ es = linked ⟨j, arm⟩ es := by
  unfold linked
  congr 1
  funext e
  exact standsFor_congr h arm e.2

section Index
variable {lines : LineTable} {tree : Value} {t : RangeTable} (h : index lines tree = .ok t)
include h

/-- The table of a tree has what visiting its nodes adds. -/
theorem additions_of_index : Visits lines [(tree, none)] (visited [(tree, none)]) ∧
    t.registered = additions lines (visited [(tree, none)]) := by
  obtain ⟨order, hvisits⟩ := visits_of_walk h
  obtain ⟨t', hwalk, hregistered⟩ := walk_of_visits hvisits .empty
  obtain rfl : t = t' := Except.ok.inj (h.symm.trans hwalk)
  rw [← hvisits.eq_visited]
  exact ⟨hvisits, hregistered⟩

theorem registered_of_index : ∀ e ∈ t.registered, IsDerived e.2 := by
  obtain ⟨hvisits, hregistered⟩ := additions_of_index h
  rw [hregistered]
  exact derived_additions hvisits (List.forall_mem_singleton.2 paired_none)

/-- A branch has two arms, and nothing stands for another one. -/
theorem linked_of_unpaired {a : BranchArm} (harm : ¬ ∃ name, (a.arm, name) ∈ arms) :
    linked a t.registered = [] := by
  apply List.filter_eq_nil_iff.2
  intro e he hstands
  obtain ⟨parent, hparent, -, hequal⟩ := standsFor_iff.1 hstands
  have hpaired := (registered_of_index h e he).2.1 parent hparent
  rw [hequal] at hpaired
  rcases hpaired with hzero | hone
  · exact harm ⟨"trueBody", by simp [arms, hzero]⟩
  · exact harm ⟨"falseBody", by simp [arms, hone]⟩

/-- In the table of a tree whose branches have different identifiers, no two targets stand for the
same arm. -/
theorem linked_cases
    (hids : (branchIds (visited [(tree, none)])).Pairwise fun i j => (i == j) = false)
    (a : BranchArm) : linked a t.registered = [] ∨ ∃ e, linked a t.registered = [e] := by
  obtain ⟨hvisits, hregistered⟩ := additions_of_index h
  have hfree : ∀ a, ∀ p ∈ [(tree, (none : Option BranchArm))], Free a p := by
    intro a p hp link hlink
    rw [List.mem_singleton.1 hp] at hlink
    cases hlink
  by_cases hbranch : ∃ ident ∈ branchIds (visited [(tree, none)]), (ident == a.branch) = true
  · obtain ⟨ident, hident, hsame⟩ := hbranch
    obtain ⟨⟨node, link⟩, hmem, hid⟩ := List.mem_filterMap.1 hident
    obtain ⟨hkind, hnode⟩ := branchId?_eq_some hid
    by_cases harm : ∃ name, (a.arm, name) ∈ arms
    · obtain ⟨name, harm⟩ := harm
      obtain ⟨body, -, hbody⟩ :=
        visitsArm_of_mem hvisits (fun _ => hfree _) hids hmem hkind hnode harm
      obtain ⟨hcounted, hnone⟩ := armCounted_of_visitsArm hbody hregistered
      have hcongr : linked a t.registered = linked ⟨ident, a.arm⟩ t.registered :=
        (linked_congr hsame a.arm t.registered).symm
      rw [hcongr]
      cases hcarrier : carrier body with
      | none => exact .inl (hnone hcarrier)
      | some first =>
        obtain ⟨e, he, -⟩ := hcounted.2 (by rw [hcarrier]; rfl)
        exact .inr ⟨e, he⟩
    · exact .inl (linked_of_unpaired h harm)
  · left
    rw [hregistered]
    refine linked_of_free hvisits (hfree a) fun ident hident => ?_
    exact Bool.eq_false_iff.2 fun hsame => hbranch ⟨ident, hident, hsame⟩

end Index

end ContractCoverage.Tree
