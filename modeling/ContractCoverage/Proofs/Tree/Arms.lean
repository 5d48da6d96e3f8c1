import ContractCoverage.Proofs.Tree.Walk

/-! The arms of a branch and the statements that stand for them.

An arm is counted through a statement that carries a link to it. The link is handed to
the first node of the body; a statement or a loop keeps it, a block hands it on to its
own first node, and every other node drops it. So an arm has a statement that stands
for it exactly when the way down through first nodes of blocks ends at a statement or a
loop (`carrier`, `armCounted_iff`). An arm whose body is another branch has none. -/
namespace ContractCoverage

/-- Whether a target stands for an arm of a branch. -/
def Target.standsFor (a : BranchArm) (t : Target) : Bool :=
  match t.parent with
  | none => false
  | some parent => parent.branch == a.branch && parent.arm == a.arm

namespace Tree
open Node

/-- The entries whose targets stand for an arm. -/
def linked (a : BranchArm) (es : List (RangeKey × Target)) : List (RangeKey × Target) :=
  es.filter (·.2.standsFor a)

theorem linked_append (a : BranchArm) (es fs : List (RangeKey × Target)) :
    linked a (es ++ fs) = linked a es ++ linked a fs := List.filter_append ..

/-- The node that keeps a link handed to a body. -/
def carrier : List Value → Option Value
  | [] => none
  | first :: _ =>
    match kindOf first with
    | .ok .loop | .ok .statement => some first
    | .ok .block =>
      match _h : blockItems first with
      | .ok items => carrier items
      | .error _ => none
    | _ => none
termination_by body => Value.weightItems body
decreasing_by
  have hw := weightItems_of_blockItems _h
  simp only [Value.weightItems]
  omega

theorem carrier_of_statement {first : Value} (rest : List Value)
    (h : kindOf first = .ok .loop ∨ kindOf first = .ok .statement) :
    carrier (first :: rest) = some first := by
  rw [carrier]
  rcases h with h | h <;> simp only [h]

theorem carrier_of_block {first : Value} {items : List Value} (rest : List Value)
    (hkind : kindOf first = .ok .block) (hitems : blockItems first = .ok items) :
    carrier (first :: rest) = carrier items := by
  rw [carrier]
  simp only [hkind]
  split
  · next found hfound =>
    rw [hitems] at hfound
    cases hfound
    rfl
  · next hfault =>
    rw [hitems] at hfault
    cases hfault

theorem carrier_of_other {first : Value} {kind : Kind} (rest : List Value)
    (hkind : kindOf first = .ok kind) (hloop : kind ≠ .loop) (hstatement : kind ≠ .statement)
    (hblock : kind ≠ .block) : carrier (first :: rest) = none := by
  rw [carrier]
  cases kind with
  | loop => exact absurd rfl hloop
  | statement => exact absurd rfl hstatement
  | block => exact absurd rfl hblock
  | container => simp only [hkind]
  | function => simp only [hkind]
  | branch => simp only [hkind]
  | other => simp only [hkind]

/-! ### Links -/

theorem forall_plain {P : Option BranchArm → Prop} (hnone : P none) (nodes : List Value) :
    ∀ p ∈ plain nodes, P p.2 := by
  intro p hp
  obtain ⟨node, -, rfl⟩ := List.mem_map.1 hp
  exact hnone

theorem forall_standing {P : Option BranchArm → Prop} (hnone : P none) {link : Option BranchArm}
    (hlink : P link) (nodes : List Value) : ∀ p ∈ standing link nodes, P p.2 := by
  cases nodes with
  | nil => exact fun p hp => absurd hp List.not_mem_nil
  | cons first rest => exact List.forall_mem_cons.2 ⟨hlink, forall_plain hnone rest⟩

/-- A node that is not handed a link to an arm. -/
def Free (a : BranchArm) (p : Pending) : Prop :=
  ∀ link, p.2 = some link → (link.branch == a.branch && link.arm == a.arm) = false

theorem free_plain (a : BranchArm) (nodes : List Value) : ∀ p ∈ plain nodes, Free a p :=
  forall_plain (P := fun link => Free a (.null, link)) nofun nodes

theorem free_standing {a : BranchArm} {link : Option BranchArm} {nodes : List Value}
    (h : ∀ node, Free a (node, link)) : ∀ p ∈ standing link nodes, Free a p :=
  forall_standing (P := fun link => Free a (.null, link)) nofun (h .null) nodes

/-- The nodes that come after a node: a block hands on its link, a branch hands out links to its
arms, and other nodes hand out none. -/
theorem children_cases {node : Value} {link : Option BranchArm} {next : List Pending}
    (h : children node link = .ok next) :
    ∃ kind, kindOf node = .ok kind ∧
      match kind with
      | .block => ∃ items, blockItems node = .ok items ∧ next = standing link items
      | .branch => ∃ id guards trueArm falseArm, identOf node = .ok id ∧
          bodyStatements node "trueBody" = .ok trueArm ∧
          bodyStatements node "falseBody" = .ok falseArm ∧
          next = plain guards ++ standing (some ⟨id, 0⟩) trueArm ++
            standing (some ⟨id, 1⟩) falseArm
      | _ => ∃ nodes, next = plain nodes := by
  simp only [children, bind_eq_ok_iff] at h
  obtain ⟨kind, hkind, h⟩ := h
  refine ⟨kind, hkind, ?_⟩
  cases kind with
  | container =>
    simp only [bind_eq_ok_iff] at h
    obtain ⟨nodes, -, h⟩ := h
    cases h
    exact ⟨nodes, rfl⟩
  | function | loop =>
    simp only [bind_eq_ok_iff] at h
    obtain ⟨nodes, -, h⟩ := h
    cases h
    exact ⟨nodes, rfl⟩
  | block =>
    simp only [bind_eq_ok_iff] at h
    obtain ⟨items, hitems, h⟩ := h
    cases h
    exact ⟨items, eq_ok_of_lift hitems, rfl⟩
  | branch =>
    simp only [bind_eq_ok_iff] at h
    obtain ⟨id, hid, guards, -, trueArm, htrue, falseArm, hfalse, h⟩ := h
    cases h
    exact ⟨id, guards, trueArm, falseArm, eq_ok_of_lift hid, htrue, hfalse, rfl⟩
  | statement | other =>
    cases h
    exact ⟨[], rfl⟩

/-- What holds of no link, of the link of a block and of the links to both arms of a branch holds of
the links of the nodes that come after them. -/
theorem forall_children {P : Option BranchArm → Prop} {node : Value} {link : Option BranchArm}
    {next : List Pending} (h : children node link = .ok next) (hnone : P none)
    (hblock : kindOf node = .ok .block → P link)
    (hbranch : kindOf node = .ok .branch → ∀ id, identOf node = .ok id →
      P (some ⟨id, 0⟩) ∧ P (some ⟨id, 1⟩)) : ∀ p ∈ next, P p.2 := by
  obtain ⟨kind, hkind, hnext⟩ := children_cases h
  have hplain : (∃ nodes, next = plain nodes) → ∀ p ∈ next, P p.2 := by
    rintro ⟨nodes, rfl⟩
    exact forall_plain hnone nodes
  cases kind with
  | container => exact hplain hnext
  | function => exact hplain hnext
  | loop => exact hplain hnext
  | statement => exact hplain hnext
  | other => exact hplain hnext
  | block =>
    obtain ⟨items, -, rfl⟩ := hnext
    exact forall_standing hnone (hblock hkind) items
  | branch =>
    obtain ⟨ident, guards, trueArm, falseArm, hid, -, -, rfl⟩ := hnext
    obtain ⟨htrue, hfalse⟩ := hbranch hkind ident hid
    exact List.forall_mem_append.2 ⟨List.forall_mem_append.2
      ⟨forall_plain hnone guards, forall_standing hnone htrue trueArm⟩,
      forall_standing hnone hfalse falseArm⟩

/-- The identifier of a node that is a branch. -/
def branchId? (p : Pending) : Option Ident :=
  match kindOf p.1, identOf p.1 with
  | .ok .branch, .ok ident => some ident
  | _, _ => none

/-- The identifiers of the branches among nodes. -/
def branchIds (order : List Pending) : List Ident := order.filterMap branchId?

theorem branchId?_of_branch {node : Value} {link : Option BranchArm} {ident : Ident}
    (hkind : kindOf node = .ok .branch) (hid : identOf node = .ok ident) :
    branchId? (node, link) = some ident := by
  simp only [branchId?, hkind, hid]

theorem branchIds_cons (p : Pending) (order : List Pending) :
    branchIds (p :: order) = (branchId? p).toList ++ branchIds order := by
  cases h : branchId? p with
  | none => rw [branchIds, List.filterMap_cons_none h]; rfl
  | some ident => rw [branchIds, List.filterMap_cons_some h]; rfl

theorem branchIds_append (first second : List Pending) :
    branchIds (first ++ second) = branchIds first ++ branchIds second := List.filterMap_append ..

/-- Links to an arm come from its branch, and from blocks that have been handed one. -/
theorem free_children {a : BranchArm} {node : Value} {link : Option BranchArm}
    {next : List Pending} (h : children node link = .ok next)
    (hblock : kindOf node = .ok .block → Free a (node, link))
    (hids : ∀ ident, branchId? (node, link) = some ident → (ident == a.branch) = false) :
    ∀ p ∈ next, Free a p := by
  refine forall_children (P := fun link => Free a (node, link)) h nofun hblock ?_
  intro hkind ident hid
  have hne := hids ident (branchId?_of_branch hkind hid)
  have harm : ∀ arm, Free a (node, some ⟨ident, arm⟩) := by
    intro arm link hlink
    cases hlink
    rw [hne, Bool.false_and]
  exact ⟨harm 0, harm 1⟩

/-! ### Entries that stand for an arm -/

section Entries
variable {lines : LineTable} {a : BranchArm} {node : Value} {link : Option BranchArm}
  {own : RangeTable} (hregister : register lines .empty link node = .ok own)
include hregister

/-- A loop or a statement adds one entry, with its link. -/
theorem entries_of_statement (hkind : kindOf node = .ok .loop ∨ kindOf node = .ok .statement) :
    ∃ e, entries lines (node, link) = [e] ∧ e.2.key.kind = "s" ∧ e.2.parent = link := by
  obtain ⟨kind, steps, hk, hasks, hentries⟩ := entries_of_asks hregister
  rw [hk] at hkind
  cases hasks with
  | loop ident range span => exact ⟨_, hentries, rfl, rfl⟩
  | statement ident range span => exact ⟨_, hentries, rfl, rfl⟩
  | function => rcases hkind with hkind | hkind <;> cases hkind
  | branch => rcases hkind with hkind | hkind <;> cases hkind
  | container => rcases hkind with hkind | hkind <;> cases hkind
  | block => rcases hkind with hkind | hkind <;> cases hkind
  | other => rcases hkind with hkind | hkind <;> cases hkind

theorem entries_of_block (hkind : kindOf node = .ok .block) : entries lines (node, link) = [] := by
  obtain ⟨kind, steps, hk, hasks, hentries⟩ := entries_of_asks hregister
  rw [hk] at hkind
  cases hkind
  cases hasks
  exact hentries

/-- Other nodes add nothing that stands for an arm. -/
theorem linked_entries_of_kind (hloop : kindOf node ≠ .ok .loop)
    (hstatement : kindOf node ≠ .ok .statement) : linked a (entries lines (node, link)) = [] := by
  obtain ⟨kind, steps, hkind, hasks, hentries⟩ := entries_of_asks hregister
  rw [hentries]
  cases hasks with
  | loop => exact absurd hkind hloop
  | statement => exact absurd hkind hstatement
  | function => rfl
  | branch => rfl
  | container => rfl
  | block => rfl
  | other => rfl

theorem linked_entries_of_free (hfree : Free a (node, link)) :
    linked a (entries lines (node, link)) = [] := by
  by_cases hkind : kindOf node = .ok .loop ∨ kindOf node = .ok .statement
  · obtain ⟨e, hentries, -, hparent⟩ := entries_of_statement hregister hkind
    have hnot : e.2.standsFor a = false := by
      rw [Target.standsFor, hparent]
      cases link with
      | none => rfl
      | some link => exact hfree link rfl
    simp [linked, hentries, hnot]
  · rw [not_or] at hkind
    exact linked_entries_of_kind hregister hkind.1 hkind.2

end Entries

/-- Nodes that are not handed a link to an arm, its branch not among them, add nothing that stands
for it. -/
theorem linked_of_free {lines : LineTable} {a : BranchArm} {pending order : List Pending}
    (h : Visits lines pending order) (hfree : ∀ p ∈ pending, Free a p)
    (hids : ∀ ident ∈ branchIds order, (ident == a.branch) = false) :
    linked a (additions lines order) = [] := by
  induction h with
  | nil => rfl
  | @cons node link own next pending order hregister hchildren _ ih =>
    rw [branchIds_cons] at hids
    have hown : ∀ ident, branchId? (node, link) = some ident → (ident == a.branch) = false := by
      intro ident hident
      refine hids ident (List.mem_append_left _ ?_)
      rw [hident]
      exact List.mem_singleton_self ident
    have hfirst := hfree _ (List.mem_cons_self ..)
    have hnext := free_children hchildren (fun _ => hfirst) hown
    have hrest : linked a (additions lines order) = [] := by
      refine ih (fun p hp => ?_) fun ident hident => hids ident (List.mem_append_right _ hident)
      rcases List.mem_append.1 hp with hp | hp
      · exact hnext p hp
      · exact hfree p (List.mem_cons_of_mem _ hp)
    rw [additions, List.flatMap_cons, linked_append, linked_entries_of_free hregister hfirst]
    exact hrest

/-! ### The body of an arm -/

/-- Entries of which the first is a statement that stands for an arm, and no other does. -/
def Begins (a : BranchArm) (es : List (RangeKey × Target)) : Prop :=
  ∃ e rest, es = e :: rest ∧ e.2.key.kind = "s" ∧ e.2.standsFor a = true ∧ linked a rest = []

theorem Begins.append {a : BranchArm} {es fs : List (RangeKey × Target)} (h : Begins a es)
    (hfs : linked a fs = []) : Begins a (es ++ fs) := by
  obtain ⟨e, rest, rfl, hstatement, hstands, hrest⟩ := h
  refine ⟨e, rest ++ fs, rfl, hstatement, hstands, ?_⟩
  rw [linked_append, hrest, hfs]
  rfl

/-- Exactly one of such entries stands for the arm, the first statement among them. -/
theorem Begins.counted {a : BranchArm} {es : List (RangeKey × Target)} (h : Begins a es) :
    ∃ e, linked a es = [e] ∧ (es.filter (·.2.key.kind == "s")).head? = some e := by
  obtain ⟨e, rest, rfl, hstatement, hstands, hrest⟩ := h
  refine ⟨e, ?_, ?_⟩
  · rw [linked, List.filter_cons_of_pos (by exact hstands)]
    exact congrArg _ hrest
  · rw [List.filter_cons_of_pos (by simp [hstatement])]
    rfl

section First
variable {lines : LineTable} {a : BranchArm} {first : Value} {rest : List Value}
  {own : RangeTable} {next order : List Pending}
  (hregister : register lines .empty (some a) first = .ok own)
  (hchildren : children first (some a) = .ok next)
  (hrest : Visits lines (next ++ plain rest) order)
  (hids : ∀ ident ∈ branchIds ((first, some a) :: order), (ident == a.branch) = false)

include hids in
theorem ne_of_first : ∀ ident, branchId? (first, some a) = some ident →
    (ident == a.branch) = false := by
  intro ident hident
  refine hids ident ?_
  rw [branchIds_cons, hident]
  exact List.mem_cons_self ..

include hids in
theorem ne_of_rest : ∀ ident ∈ branchIds order, (ident == a.branch) = false := by
  intro ident hident
  refine hids ident ?_
  rw [branchIds_cons]
  exact List.mem_append_right _ hident

include hchildren hrest hids

/-- What comes after a first node that is no block is handed no link to the arm. -/
theorem linked_of_rest (hblock : kindOf first ≠ .ok .block) :
    linked a (additions lines order) = [] := by
  refine linked_of_free hrest (fun p hp => ?_) (ne_of_rest hids)
  rcases List.mem_append.1 hp with hp | hp
  · exact free_children hchildren (fun hk => absurd hk hblock) (ne_of_first hids) p hp
  · exact free_plain a rest p hp

include hregister

theorem begins_of_kept (hkept : kindOf first = .ok .loop ∨ kindOf first = .ok .statement) :
    Begins a (additions lines ((first, some a) :: order)) := by
  obtain ⟨e, hentries, hstatement, hparent⟩ := entries_of_statement hregister hkept
  have hstands : e.2.standsFor a = true := by
    rw [Target.standsFor, hparent]
    simp
  have hblock : kindOf first ≠ .ok .block := by
    rcases hkept with hk | hk <;> rw [hk] <;> simp
  refine ⟨e, additions lines order, ?_, hstatement, hstands,
    linked_of_rest hchildren hrest hids hblock⟩
  rw [additions, List.flatMap_cons, hentries]
  rfl

theorem linked_of_dropped (hloop : kindOf first ≠ .ok .loop)
    (hstatement : kindOf first ≠ .ok .statement) (hblock : kindOf first ≠ .ok .block) :
    linked a (additions lines ((first, some a) :: order)) = [] := by
  rw [additions, List.flatMap_cons, linked_append,
    linked_entries_of_kind hregister hloop hstatement]
  exact linked_of_rest hchildren hrest hids hblock

/-- A block adds what its items add, which are handed its link, and what comes after it. -/
theorem additions_of_block {items : List Value} (hkind : kindOf first = .ok .block)
    (hitems : blockItems first = .ok items) :
    ∃ inner after, Visits lines (standing (some a) items) inner ∧
      (∀ ident ∈ branchIds inner, (ident == a.branch) = false) ∧
      linked a (additions lines after) = [] ∧
      additions lines ((first, some a) :: order) =
        additions lines inner ++ additions lines after := by
  have hnext : next = standing (some a) items := by
    obtain ⟨kind, hk, hnext⟩ := children_cases hchildren
    rw [hk] at hkind
    cases hkind
    obtain ⟨found, hfound, rfl⟩ := hnext
    rw [hitems] at hfound
    cases hfound
    rfl
  rw [hnext] at hrest
  obtain ⟨inner, after, rfl, hinner, hafter⟩ := hrest.split
  have hids' := ne_of_rest hids
  rw [branchIds_append] at hids'
  refine ⟨inner, after, hinner, fun ident hident => hids' ident (List.mem_append_left _ hident),
    ?_, ?_⟩
  · exact linked_of_free hafter (free_plain a rest)
      fun ident hident => hids' ident (List.mem_append_right _ hident)
  · rw [additions, List.flatMap_cons, entries_of_block hregister hkind, List.nil_append]
    exact List.flatMap_append

end First

/-- What visiting the body of an arm adds: when its link is kept, first of all a statement that
stands for the arm and nothing else that does; and otherwise nothing that does. -/
theorem additions_of_body {lines : LineTable} {a : BranchArm} {body : List Value}
    {order : List Pending} (h : Visits lines (standing (some a) body) order)
    (hids : ∀ ident ∈ branchIds order, (ident == a.branch) = false) :
    (Begins a (additions lines order) ∧ (carrier body).isSome = true) ∨
      (linked a (additions lines order) = [] ∧ carrier body = none) := by
  induction hw : Value.weightItems body using Nat.strongRecOn generalizing body order with
  | ind n ih =>
    cases body with
    | nil =>
      cases h
      exact .inr ⟨rfl, by rw [carrier]⟩
    | cons first rest =>
      cases h with
      | @cons _ _ own next _ order hregister hchildren hrest =>
        obtain ⟨kind, hkind, hnext⟩ := children_cases hchildren
        cases kind with
        | loop | statement =>
          have hkept : kindOf first = .ok .loop ∨ kindOf first = .ok .statement := by
            simp [hkind]
          refine .inl ⟨begins_of_kept hregister hchildren hrest hids hkept, ?_⟩
          rw [carrier_of_statement rest hkept]
          rfl
        | block =>
          obtain ⟨items, hitems, rfl⟩ := hnext
          have hless : Value.weightItems items < n := by
            have hitem := weightItems_of_blockItems hitems
            simp only [Value.weightItems] at hw
            omega
          obtain ⟨inner, after, hinner, hids', hafter, hsum⟩ :=
            additions_of_block hregister hchildren hrest hids hkind hitems
          rw [hsum, carrier_of_block rest hkind hitems]
          rcases ih _ hless hinner hids' rfl with ⟨hbegins, hcarrier⟩ | ⟨hnone, hcarrier⟩
          · exact .inl ⟨hbegins.append hafter, hcarrier⟩
          · exact .inr ⟨by rw [linked_append, hnone, hafter]; rfl, hcarrier⟩
        | container | function | branch | other =>
          refine .inr ⟨?_, carrier_of_other rest hkind ?_ ?_ ?_⟩
          · refine linked_of_dropped hregister hchildren hrest hids ?_ ?_ ?_ <;> simp [hkind]
          all_goals simp

/-! ### The arms of a branch -/

/-- The arms of a branch with the names of their bodies. -/
def arms : List (Int × String) := [(0, "trueBody"), (1, "falseBody")]

/-- The statements that visiting the body of an arm adds. -/
def bodyStatementEntries (lines : LineTable) (a : BranchArm) (body : List Value) :
    List (RangeKey × Target) :=
  match walk lines .empty (standing (some a) body) with
  | .ok t => t.registered.filter (·.2.key.kind == "s")
  | .error _ => []

/-- An arm is counted: exactly one target of the table stands for it, the first statement that
visiting its body adds. -/
def ArmCounted (lines : LineTable) (t : RangeTable) (a : BranchArm) (body : List Value) : Prop :=
  ∃ e, linked a t.registered = [e] ∧ (bodyStatementEntries lines a body).head? = some e

/-- Among some visits are those of the body of an arm, without its branch, and nothing that is added
before or after these stands for the arm. -/
def VisitsArm (lines : LineTable) (a : BranchArm) (body : List Value) (order : List Pending) :
    Prop :=
  ∃ inner before after, Visits lines (standing (some a) body) inner ∧
    (∀ other ∈ branchIds inner, (other == a.branch) = false) ∧
    additions lines order = before ++ additions lines inner ++ after ∧
    linked a before = [] ∧ linked a after = []

theorem VisitsArm.cons {lines : LineTable} {a : BranchArm} {body : List Value}
    {order : List Pending} (h : VisitsArm lines a body order) {p : Pending}
    (hp : linked a (entries lines p) = []) : VisitsArm lines a body (p :: order) := by
  obtain ⟨inner, before, after, hinner, hids, hsum, hbefore, hafter⟩ := h
  refine ⟨inner, entries lines p ++ before, after, hinner, hids, ?_, ?_, hafter⟩
  · show entries lines p ++ additions lines order = _
    rw [hsum]
    simp only [List.append_assoc]
  · rw [linked_append, hp, hbefore]
    rfl

theorem free_other_arm {ident : Ident} {arm other : Int} (h : other ≠ arm) (node : Value) :
    Free ⟨ident, arm⟩ (node, some ⟨ident, other⟩) := by
  intro link hlink
  cases hlink
  simp [h]

/-- The bodies of a branch are visited one after the other, and each is handed the link to its arm
alone. -/
theorem visitsArm_both {lines : LineTable} {ident : Ident} {guards trueArm falseArm : List Value}
    {pending order : List Pending}
    (h : Visits lines (plain guards ++ standing (some ⟨ident, 0⟩) trueArm ++
      standing (some ⟨ident, 1⟩) falseArm ++ pending) order)
    (hfree : ∀ arm, ∀ p ∈ pending, Free ⟨ident, arm⟩ p)
    (hids : ∀ other ∈ branchIds order, (other == ident) = false) :
    VisitsArm lines ⟨ident, 0⟩ trueArm order ∧ VisitsArm lines ⟨ident, 1⟩ falseArm order := by
  obtain ⟨both, last, rfl, hboth, hlast⟩ := h.split
  obtain ⟨upper, lower, rfl, hupper, hlower⟩ := hboth.split
  obtain ⟨guard, middle, rfl, hguard, hmiddle⟩ := hupper.split
  simp only [branchIds_append, List.forall_mem_append] at hids
  obtain ⟨⟨⟨hg, hm⟩, hl⟩, hr⟩ := hids
  have hguards : ∀ arm, linked ⟨ident, arm⟩ (additions lines guard) = [] := fun arm =>
    linked_of_free hguard (free_plain _ guards) hg
  have hothers : ∀ arm, linked ⟨ident, arm⟩ (additions lines last) = [] := fun arm =>
    linked_of_free hlast (hfree arm) hr
  have hsum : additions lines (guard ++ middle ++ lower ++ last) =
      additions lines guard ++ additions lines middle ++ additions lines lower ++
        additions lines last := by
    simp only [additions, List.flatMap_append]
  constructor
  · refine ⟨middle, additions lines guard, additions lines lower ++ additions lines last, hmiddle,
      hm, ?_, hguards 0, ?_⟩
    · rw [hsum, List.append_assoc _ (additions lines lower)]
    · rw [linked_append, hothers 0]
      rw [linked_of_free hlower (free_standing (free_other_arm (by decide))) hl]
      rfl
  · refine ⟨lower, additions lines guard ++ additions lines middle, additions lines last, hlower,
      hl, hsum, ?_, hothers 1⟩
    rw [linked_append, hguards 1]
    rw [linked_of_free hmiddle (free_standing (free_other_arm (by decide))) hm]
    rfl

/-- Visiting a branch visits the bodies of its arms. -/
theorem visitsArm_of_branch {lines : LineTable} {node : Value} {link : Option BranchArm}
    {own : RangeTable} {next pending order : List Pending} {ident : Ident}
    (hregister : register lines .empty link node = .ok own)
    (hchildren : children node link = .ok next) (hrest : Visits lines (next ++ pending) order)
    (hfree : ∀ arm, ∀ p ∈ pending, Free ⟨ident, arm⟩ p)
    (hids : ∀ other ∈ branchIds order, (other == ident) = false)
    (hkind : kindOf node = .ok .branch) (hid : identOf node = .ok ident) {arm : Int}
    {name : String} (harm : (arm, name) ∈ arms) :
    ∃ body, bodyStatements node name = .ok body ∧
      VisitsArm lines ⟨ident, arm⟩ body ((node, link) :: order) := by
  obtain ⟨kind, hk, hnext⟩ := children_cases hchildren
  rw [hk] at hkind
  cases hkind
  obtain ⟨found, guards, trueArm, falseArm, hfound, htrue, hfalse, rfl⟩ := hnext
  rw [hfound] at hid
  cases hid
  have hown : ∀ a, linked a (entries lines (node, link)) = [] := fun a =>
    linked_entries_of_kind hregister (by simp [hk]) (by simp [hk])
  obtain ⟨hupper, hlower⟩ := visitsArm_both hrest hfree hids
  rcases List.mem_cons.1 harm with harm | harm
  · cases harm
    exact ⟨trueArm, htrue, hupper.cons (hown _)⟩
  · cases List.mem_singleton.1 harm
    exact ⟨falseArm, hfalse, hlower.cons (hown _)⟩

/-- Wherever a branch is visited, the bodies of its arms are, and nowhere else is anything handed a
link to them. -/
theorem visitsArm_of_mem {lines : LineTable} {pending order : List Pending} {node : Value}
    {link : Option BranchArm} {ident : Ident} (h : Visits lines pending order)
    (hfree : ∀ arm, ∀ p ∈ pending, Free ⟨ident, arm⟩ p)
    (hids : (branchIds order).Pairwise fun i j => (i == j) = false)
    (hmem : (node, link) ∈ order) (hkind : kindOf node = .ok .branch)
    (hid : identOf node = .ok ident) {arm : Int} {name : String} (harm : (arm, name) ∈ arms) :
    ∃ body, bodyStatements node name = .ok body ∧ VisitsArm lines ⟨ident, arm⟩ body order := by
  induction h with
  | nil => cases hmem
  | @cons first link' own next pending order hregister hchildren hrest ih =>
    rw [branchIds_cons] at hids
    obtain ⟨-, hpairs, hapart⟩ := List.pairwise_append.1 hids
    by_cases hhere : (node, link) = (first, link')
    · cases hhere
      have hothers : ∀ other ∈ branchIds order, (other == ident) = false := by
        intro other hother
        rw [BEq.comm]
        exact hapart ident (by simp [branchId?_of_branch hkind hid]) other hother
      exact visitsArm_of_branch hregister hchildren hrest
        (fun arm p hp => hfree arm p (List.mem_cons_of_mem _ hp)) hothers hkind hid harm
    · have hlater : (node, link) ∈ order := by
        rcases List.mem_cons.1 hmem with heq | hmem
        · exact absurd heq hhere
        · exact hmem
      have hlisted : ident ∈ branchIds order :=
        List.mem_filterMap.2 ⟨_, hlater, branchId?_of_branch hkind hid⟩
      have hfirst : ∀ arm, Free ⟨ident, arm⟩ (first, link') := fun arm =>
        hfree arm _ (List.mem_cons_self ..)
      have hne : ∀ other, branchId? (first, link') = some other → (other == ident) = false :=
        fun other hother => hapart other (by simp [hother]) ident hlisted
      have hnext : ∀ arm, ∀ p ∈ next ++ pending, Free ⟨ident, arm⟩ p := by
        intro arm p hp
        rcases List.mem_append.1 hp with hp | hp
        · exact free_children hchildren (fun _ => hfirst arm) hne p hp
        · exact hfree arm p (List.mem_cons_of_mem _ hp)
      obtain ⟨body, hbody, hvisits⟩ := ih hnext hpairs hlater
      exact ⟨body, hbody, hvisits.cons (linked_entries_of_free hregister (hfirst arm))⟩

/-! ### Which arms are counted -/

theorem bodyStatementEntries_of_visits {lines : LineTable} {a : BranchArm} {body : List Value}
    {inner : List Pending} (h : Visits lines (standing (some a) body) inner) :
    bodyStatementEntries lines a body =
      (additions lines inner).filter (·.2.key.kind == "s") := by
  obtain ⟨t, hwalk, hregistered⟩ := walk_of_visits h .empty
  rw [bodyStatementEntries, hwalk]
  show t.registered.filter _ = _
  rw [hregistered]
  rfl

/-- In a table that registers what visits add, an arm among them is counted when its link is kept,
and has no target that stands for it when not. -/
theorem armCounted_of_visitsArm {lines : LineTable} {t : RangeTable} {a : BranchArm}
    {body : List Value} {order : List Pending} (h : VisitsArm lines a body order)
    (ht : t.registered = additions lines order) :
    (ArmCounted lines t a body ↔ (carrier body).isSome = true) ∧
      (carrier body = none → linked a t.registered = []) := by
  obtain ⟨inner, before, after, hinner, hids, hsum, hbefore, hafter⟩ := h
  have htable : linked a t.registered = linked a (additions lines inner) := by
    rw [ht, hsum, linked_append, linked_append, hbefore, hafter, List.append_nil, List.nil_append]
  rcases additions_of_body hinner hids with ⟨hbegins, hcarrier⟩ | ⟨hnone, hcarrier⟩
  · obtain ⟨e, hlinked, hhead⟩ := hbegins.counted
    have hcounted : ArmCounted lines t a body :=
      ⟨e, htable.trans hlinked, bodyStatementEntries_of_visits hinner ▸ hhead⟩
    refine ⟨⟨fun _ => hcarrier, fun _ => hcounted⟩, fun hnot => ?_⟩
    rw [hnot] at hcarrier
    cases hcarrier
  · refine ⟨⟨?_, fun hsome => ?_⟩, fun _ => htable.trans hnone⟩
    · rintro ⟨e, he, -⟩
      rw [htable, hnone] at he
      cases he
    · rw [hcarrier] at hsome
      cases hsome

theorem children_of_visited {lines : LineTable} {pending order : List Pending}
    (h : Visits lines pending order) {p : Pending} (hmem : p ∈ order) :
    ∃ next, children p.1 p.2 = .ok next := by
  induction h with
  | nil => cases hmem
  | cons _ hchildren _ ih =>
    rcases List.mem_cons.1 hmem with rfl | hmem
    · exact ⟨_, hchildren⟩
    · exact ih hmem

/-- A branch whose children can be visited has an identifier. -/
theorem exists_ident {node : Value} {link : Option BranchArm} {next : List Pending}
    (h : children node link = .ok next) (hkind : kindOf node = .ok .branch) :
    ∃ ident, identOf node = .ok ident := by
  obtain ⟨kind, hk, hnext⟩ := children_cases h
  rw [hk] at hkind
  cases hkind
  obtain ⟨ident, guards, trueArm, falseArm, hid, -⟩ := hnext
  exact ⟨ident, hid⟩

/-- **Which arms are counted.** In the table of a tree whose branches have different identifiers, an
arm of a branch is counted exactly when a loop or a statement keeps the link that is handed to its
body. When none does, no target of the table stands for the arm. -/
theorem armCounted_iff {lines : LineTable} {tree : Value} {t : RangeTable}
    (h : index lines tree = .ok t)
    (hids : (branchIds (visited [(tree, none)])).Pairwise fun i j => (i == j) = false)
    {node : Value} {link : Option BranchArm} (hmem : (node, link) ∈ visited [(tree, none)])
    (hkind : kindOf node = .ok .branch) :
    ∃ ident, identOf node = .ok ident ∧ ∀ arm name, (arm, name) ∈ arms →
      ∃ body, bodyStatements node name = .ok body ∧
        (ArmCounted lines t ⟨ident, arm⟩ body ↔ (carrier body).isSome = true) ∧
        (carrier body = none → linked ⟨ident, arm⟩ t.registered = []) := by
  obtain ⟨order, hvisits⟩ := visits_of_walk h
  obtain ⟨t', hwalk, hregistered⟩ := walk_of_visits hvisits .empty
  obtain rfl : t = t' := Except.ok.inj (h.symm.trans hwalk)
  obtain rfl : order = visited [(tree, none)] := hvisits.eq_visited
  obtain ⟨next, hchildren⟩ := children_of_visited hvisits hmem
  obtain ⟨ident, hid⟩ := exists_ident hchildren hkind
  have hfree : ∀ arm, ∀ p ∈ [(tree, none)], Free ⟨ident, arm⟩ p := by
    intro arm p hp link hlink
    rw [List.mem_singleton.1 hp] at hlink
    cases hlink
  refine ⟨ident, hid, fun arm name harm => ?_⟩
  obtain ⟨body, hbody, harmVisits⟩ := visitsArm_of_mem hvisits hfree hids hmem hkind hid harm
  exact ⟨body, hbody, armCounted_of_visitsArm harmVisits hregistered⟩

/-! ### A chain of branches -/

/-- A node without further nodes. -/
def leaf (kind : String) (ident : Int) (src : String) : Value :=
  .object [("nodeType", .text kind), ("id", .int ident), ("src", .text src)]

/-- A branch with an expression as its condition and a block of one statement as its first arm. -/
def branchNode (ident : Int) (src condition block statement : String)
    (more : List (String × Value)) : Value :=
  .object ([("nodeType", .text "IfStatement"), ("id", .int ident), ("src", .text src),
    ("condition", leaf "Identifier" (ident + 1) condition),
    ("trueBody", .object [("nodeType", .text "Block"), ("id", .int (ident + 2)),
      ("src", .text block),
      ("statements", .list [leaf "ExpressionStatement" (ident + 3) statement])])] ++ more)

/-- The text of a branch with another one in its second arm. -/
def chainText : String := "if (a) { b; } else if (c) { d; }"

/-- The second branch of the chain. -/
def secondBranch : Value := branchNode 5 "19:13:0" "23:1:0" "26:6:0" "28:2:0" []

/-- The chain of two branches. -/
def chain : Value :=
  branchNode 1 "0:32:0" "4:1:0" "7:6:0" "9:2:0" [("falseBody", secondBranch)]

theorem branchIds_chain :
    (branchIds (visited [(chain, none)])).Pairwise fun i j => (i == j) = false := by
  decide +kernel

/-- The first arm of the chain is counted through the statement of its block. -/
theorem armCounted_chain :
    ∃ t, index (.ofText chainText) chain = .ok t ∧
      ArmCounted (.ofText chainText) t ⟨.ofInt 1, 0⟩ [leaf "ExpressionStatement" 4 "9:2:0"] := by
  have hsome : (index (.ofText chainText) chain).toOption.isSome = true := by decide +kernel
  have hmem : (chain, none) ∈ visited [(chain, none)] := by
    rw [visited]
    exact List.mem_cons_self ..
  cases h : index (.ofText chainText) chain with
  | error fault =>
    rw [h] at hsome
    cases hsome
  | ok t =>
    obtain ⟨ident, hid, harms⟩ := armCounted_iff h branchIds_chain hmem rfl
    obtain rfl : Ident.ofInt 1 = ident := Except.ok.inj hid
    obtain ⟨body, hbody, hcounted, -⟩ := harms 0 "trueBody" (List.mem_cons_self ..)
    obtain rfl : [leaf "ExpressionStatement" 4 "9:2:0"] = body := Except.ok.inj hbody
    refine ⟨t, rfl, hcounted.2 ?_⟩
    rw [carrier_of_statement [] (.inr rfl)]
    rfl

/-- The second arm of the chain is not counted, although visiting its body adds statements: the
link to the arm is handed to the second branch, which drops it. -/
theorem not_armCounted_chain :
    ∃ t, index (.ofText chainText) chain = .ok t ∧
      ((branchIds (visited [(chain, none)])).Pairwise fun i j => (i == j) = false) ∧
      bodyStatements chain "falseBody" = .ok [secondBranch] ∧
      bodyStatementEntries (.ofText chainText) ⟨.ofInt 1, 1⟩ [secondBranch] ≠ [] ∧
      ¬ ArmCounted (.ofText chainText) t ⟨.ofInt 1, 1⟩ [secondBranch] := by
  have hnone : ((index (.ofText chainText) chain).toOption.any
      fun t => (linked ⟨.ofInt 1, 1⟩ t.registered).isEmpty) = true := by decide +kernel
  have hadds : (bodyStatementEntries (.ofText chainText) ⟨.ofInt 1, 1⟩ [secondBranch]).isEmpty =
      false := by decide +kernel
  cases h : index (.ofText chainText) chain with
  | error fault =>
    rw [h] at hnone
    cases hnone
  | ok t =>
    rw [h] at hnone
    refine ⟨t, rfl, branchIds_chain, rfl, fun hnil => ?_, ?_⟩
    · rw [hnil] at hadds
      cases hadds
    · rintro ⟨e, he, -⟩
      have hempty : (linked ⟨.ofInt 1, 1⟩ t.registered).isEmpty = true := hnone
      rw [he] at hempty
      cases hempty

end Tree

end ContractCoverage
