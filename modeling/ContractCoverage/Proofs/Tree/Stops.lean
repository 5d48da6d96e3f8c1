import ContractCoverage.Proofs.Tree.Unreported

/-! Where the walk through a syntax tree ends without a report.

The nodes of a tree are visited up to the first that cannot be: what it stands for cannot
be added, or what comes after it cannot be told. `escapes_index` says that the fault
escapes exactly when that node is malformed in one of the ways that are not reported;
nodes further on do not matter, and neither does what has been added so far. -/
namespace ContractCoverage.Tree
open Node

/-! ### Which nodes come next -/

theorem elements_cases (v : Value) :
    v.elements = .error .wrongKind ∨ ∃ items, v.elements = .ok items := by
  cases v with
  | list items => exact .inr ⟨_, rfl⟩
  | text s => exact .inr ⟨_, rfl⟩
  | object fields => exact .inr ⟨_, rfl⟩
  | _ => exact .inl rfl

/-- The statements of a block can be listed, or they are none. -/
theorem blockItems_cases (fields : List (String × Value)) :
    (BadItems (.object fields) ∧ blockItems (.object fields) = .error .wrongKind) ∨
      ¬ BadItems (.object fields) ∧ ∃ items, blockItems (.object fields) = .ok items := by
  simp only [BadItems, blockItems, Value.get?, Except.ok.injEq]
  cases fields.lookup "statements" with
  | none => exact .inr ⟨by simp, [], rfl⟩
  | some v =>
    simp only [Option.getD_some, listed, Option.some.injEq, exists_eq_left']
    by_cases hvoid : v.isVoid = true
    · rw [if_pos hvoid]
      exact .inr ⟨fun h => by simp [hvoid] at h, [], rfl⟩
    · rw [if_neg hvoid]
      rcases elements_cases v with hfault | ⟨items, hitems⟩
      · exact .inl ⟨⟨Bool.eq_false_iff.2 hvoid, _, hfault⟩, hfault⟩
      · exact .inr ⟨fun h => by simp [hitems] at h, items, hitems⟩

/-- The statements of a body can be listed, or the fault escapes. -/
theorem statements_cases (body : Value) :
    (¬ IsNode body ∨ kindOf body = .ok .block ∧ BadItems body) ∧ Escapes (statements body) ∨
      ¬ (¬ IsNode body ∨ kindOf body = .ok .block ∧ BadItems body) ∧
        ∃ items, statements body = .ok items := by
  unfold statements
  rcases kindOf_cases body with ⟨hnode, kind, hkind⟩ | ⟨hnode, fault, hfault, hreported⟩
  · obtain ⟨fields, rfl⟩ := exists_fields_of_kindOf hkind
    simp only [hkind, hnode, not_true_eq_false, false_or, Except.ok.injEq]
    cases kind with
    | block =>
      rcases blockItems_cases fields with ⟨hbad, hitems⟩ | ⟨hgood, items, hitems⟩
      · exact .inl ⟨⟨rfl, hbad⟩, _, by rw [hitems]; rfl, rfl⟩
      · exact .inr ⟨fun h => hgood h.2, items, by rw [hitems]; rfl⟩
    | _ => exact .inr ⟨fun h => (by cases h.1), _, rfl⟩
  · rw [hfault]
    exact .inl ⟨.inl hnode, fault, rfl, hreported⟩

theorem bodyStatements_cases (fields : List (String × Value)) (name : String) :
    BadBody (.object fields) name ∧ Escapes (bodyStatements (.object fields) name) ∨
      ¬ BadBody (.object fields) name ∧
        ∃ items, bodyStatements (.object fields) name = .ok items := by
  rw [BadBody, bodyStatements, child?_object]
  cases (fields.lookup name).filter (!·.isNull) with
  | none => exact .inr ⟨by simp, [], rfl⟩
  | some body =>
    simp only [Except.ok.injEq, Option.some.injEq, exists_eq_left']
    exact statements_cases body

/-- What comes after a node cannot be told, for a reason that is not reported. -/
inductive BadNext (node : Value) : Prop
  | unnamed (h : ¬ IsNode node)
  | definitions (hkind : kindOf node = .ok .container) (h : BadDefinitions node)
  | items (hkind : kindOf node = .ok .block) (h : BadItems node)
  | body (hkind : kindOf node = .ok .function ∨ kindOf node = .ok .loop) (h : BadBody node "body")
  | arm (hkind : kindOf node = .ok .branch)
    (h : BadBody node "trueBody" ∨ BadBody node "falseBody")

theorem definitions_cases (fields : List (String × Value)) :
    BadDefinitions (.object fields) ∧ definitions (.object fields) = .error .wrongKind ∨
      ¬ BadDefinitions (.object fields) ∧ ∃ items, definitions (.object fields) = .ok items := by
  have hnodes : ∃ v, nodes (.object fields) = .ok v := by
    simp only [nodes, Value.contains_object, ok_bind, Value.field]
    cases fields.lookup "nodes" with
    | some v => exact ⟨v, rfl⟩
    | none => cases fields.lookup "children" <;> exact ⟨_, rfl⟩
  obtain ⟨v, hv⟩ := hnodes
  rw [definitions, BadDefinitions, hv]
  rcases elements_cases v with hfault | ⟨items, hitems⟩
  · exact .inl ⟨⟨v, _, rfl, hfault⟩, hfault⟩
  · refine .inr ⟨?_, items, hitems⟩
    rintro ⟨_, fault, ⟨⟩, hfault⟩
    rw [hitems] at hfault
    cases hfault

/-- A list of statements that is used for nodes to visit lets a fault escape where it cannot be
made. -/
theorem escapes_body {α : Type} {fields : List (String × Value)} {name : String}
    {f : List Value → Except Fault α} {later : Prop} (h : ∀ items, Escapes (f items) ↔ later) :
    Escapes (bodyStatements (.object fields) name >>= f) ↔
      BadBody (.object fields) name ∨ later := by
  rw [escapes_bind]
  rcases bodyStatements_cases fields name with ⟨hbad, hescapes⟩ | ⟨hgood, items, hitems⟩
  · exact ⟨fun _ => .inl hbad, fun _ => .inl hescapes⟩
  · simp [hitems, hgood, h]

theorem escapes_list {α : Type} {x : Except ShapeFault (List Value)} {bad : Prop}
    (hx : bad ∧ x = .error .wrongKind ∨ ¬ bad ∧ ∃ items, x = .ok items)
    (f : List Value → α) :
    Escapes ((liftM x : Except Fault (List Value)) >>= fun items => pure (f items)) ↔ bad := by
  rcases hx with ⟨hbad, rfl⟩ | ⟨hgood, items, rfl⟩
  · simp [lift_error, escapes_error, Fault.isReported, hbad]
  · simp [lift_ok, hgood]

theorem escapes_children {node : Value} {link : Option BranchArm} :
    Escapes (children node link) ↔ BadNext node := by
  unfold children
  rcases kindOf_cases node with ⟨hnode, kind, hkind⟩ | ⟨hnode, fault, hfault, hreported⟩
  · obtain ⟨fields, rfl⟩ := exists_fields_of_kindOf hkind
    have hbody : Escapes (bodyStatements (.object fields) "body" >>= fun items =>
        (pure (plain items) : Except Fault (List Pending))) ↔
        BadBody (.object fields) "body" ∨ False :=
      escapes_body fun _ => iff_of_false (not_escapes_pure _) id
    have harms : Escapes (bodyStatements (.object fields) "trueBody" >>= fun trueArm =>
        bodyStatements (.object fields) "falseBody" >>= fun falseArm =>
          (pure (plain ((fields.lookup "condition").filter (!·.isNull)).toList ++
            standing (some ⟨⟨(fields.lookup "id").getD .null⟩, 0⟩) trueArm ++
            standing (some ⟨⟨(fields.lookup "id").getD .null⟩, 1⟩) falseArm) :
              Except Fault (List Pending))) ↔
        BadBody (.object fields) "trueBody" ∨ BadBody (.object fields) "falseBody" ∨ False :=
      escapes_body fun _ => escapes_body fun _ => iff_of_false (not_escapes_pure _) id
    rw [or_false] at hbody harms
    rw [hkind, ok_bind]
    constructor
    · intro h
      cases kind with
      | container => exact .definitions hkind ((escapes_list (definitions_cases fields) _).1 h)
      | function => exact .body (.inl hkind) (hbody.1 h)
      | loop => exact .body (.inr hkind) (hbody.1 h)
      | block => exact .items hkind ((escapes_list (blockItems_cases fields) _).1 h)
      | branch => exact .arm hkind (harms.1 h)
      | _ => exact absurd h (not_escapes_pure _)
    · rintro (h | ⟨hown, h⟩ | ⟨hown, h⟩ | ⟨hown | hown, h⟩ | ⟨hown, h⟩)
      · exact absurd hnode h
      all_goals
        rw [hkind] at hown
        cases hown
      · exact (escapes_list (definitions_cases fields) _).2 h
      · exact (escapes_list (blockItems_cases fields) _).2 h
      · exact hbody.2 h
      · exact hbody.2 h
      · exact harms.2 h
  · exact ⟨fun _ => .unnamed hnode, fun _ => escapes_bind.2 (.inl ⟨fault, hfault, hreported⟩)⟩

/-! ### The walk -/

/-- A visit of a node: what it stands for is added, and the nodes that come next are told. -/
def visit (lines : LineTable) (p : Pending) : Except Fault (List Pending) := do
  let _ ← register lines .empty p.2 p.1
  children p.1 p.2

/-- A visit fails for a reason that is not reported: what the node stands for cannot be added, or it
can and what comes after it cannot be told. -/
def BadVisit (lines : LineTable) (p : Pending) : Prop :=
  BadOwn lines p.1 ∨ (∃ own, register lines .empty p.2 p.1 = .ok own) ∧ BadNext p.1

/-- The first visit that fails, on the way from some pending nodes, does so for a reason that is not
reported. -/
def Stops (lines : LineTable) (pending : List Pending) : Prop :=
  ∃ before p after, visited pending = before ++ p :: after ∧
    (∀ q ∈ before, ∃ next, visit lines q = .ok next) ∧ BadVisit lines p

section Walk
variable {lines : LineTable} {node : Value} {link : Option BranchArm}

theorem visit_eq_ok_iff {next : List Pending} :
    visit lines (node, link) = .ok next ↔
      (∃ own, register lines .empty link node = .ok own) ∧ children node link = .ok next := by
  rw [visit, bind_eq_ok_iff]
  exact exists_and_right

/-- Something is wrong with the first of some nodes, or with a later one when that is visited. -/
theorem stops_cons {rest : List Pending} :
    Stops lines ((node, link) :: rest) ↔
      BadVisit lines (node, link) ∨
        ∃ next, visit lines (node, link) = .ok next ∧ Stops lines (next ++ rest) := by
  constructor
  · rintro ⟨before, p, after, horder, hbefore, hbad⟩
    cases before with
    | nil =>
      rw [visited] at horder
      obtain ⟨rfl, -⟩ := List.cons.inj horder
      exact .inl hbad
    | cons first before =>
      obtain ⟨hfirst, hothers⟩ := List.forall_mem_cons.1 hbefore
      have hsame : first = (node, link) := by
        rw [visited] at horder
        exact (List.cons.inj horder).1.symm
      rw [hsame] at hfirst horder
      obtain ⟨next, hnext⟩ := hfirst
      rw [visited_cons (visit_eq_ok_iff.1 hnext).2] at horder
      exact .inr ⟨next, hnext, before, p, after, (List.cons.inj horder).2, hothers, hbad⟩
  · rintro (hbad | ⟨next, hnext, before, p, after, horder, hbefore, hbad⟩)
    · obtain ⟨after, hafter⟩ : ∃ after, visited ((node, link) :: rest) = (node, link) :: after := by
        rw [visited]
        exact ⟨_, rfl⟩
      exact ⟨[], (node, link), after, hafter, fun _ h => absurd h List.not_mem_nil, hbad⟩
    · refine ⟨(node, link) :: before, p, after, ?_,
        List.forall_mem_cons.2 ⟨⟨next, hnext⟩, hbefore⟩, hbad⟩
      rw [visited_cons (visit_eq_ok_iff.1 hnext).2, horder]
      rfl

/-- What is wrong with a node does not depend on the table. -/
theorem exists_register_iff (t : RangeTable) :
    (∃ own, register lines t link node = .ok own) ↔
      ∃ own, register lines .empty link node = .ok own := by
  constructor
  · rintro ⟨own, hown⟩
    exact (register_of_ok hown).2 .empty
  · rintro ⟨own, hown⟩
    exact (register_of_ok hown).2 t

/-- A walk lets a fault escape when the first visit that fails does so for a reason that is not
reported. -/
theorem escapes_walk {pending : List Pending} (t : RangeTable) :
    Escapes (walk lines t pending) ↔ Stops lines pending := by
  induction hw : weight pending using Nat.strongRecOn generalizing t pending with
  | ind n ih =>
    cases pending with
    | nil =>
      rw [walk]
      refine iff_of_false (not_escapes_ok t) ?_
      rintro ⟨before, p, after, horder, -⟩
      rw [visited] at horder
      exact List.append_ne_nil_of_right_ne_nil before (List.cons_ne_nil p after) horder.symm
    | cons p rest =>
      obtain ⟨node, link⟩ := p
      have hrest : ∀ own next, children node link = .ok next →
          (Escapes (walk lines own (next ++ rest)) ↔ Stops lines (next ++ rest)) :=
        fun own next hnext => ih _ (hw ▸ weight_next hnext rest) own rfl
      have hlater : ∀ own, Escapes (children node link >>= fun next =>
          walk lines own (next ++ rest)) ↔
            BadNext node ∨ ∃ next, children node link = .ok next ∧ Stops lines (next ++ rest) :=
        fun own => escapes_bind_congr escapes_children fun next hnext => hrest own next hnext
      rw [walk_step, escapes_bind_congr escapes_register fun own _ => hlater own, stops_cons,
        exists_and_right, exists_register_iff, BadVisit]
      simp only [visit_eq_ok_iff, and_assoc, exists_and_left, and_or_left, or_assoc]

end Walk

/-- Indexing a tree lets a fault escape when the first node that cannot be visited is malformed in a
way that is not reported. -/
theorem escapes_index {lines : LineTable} {tree : Value} :
    Escapes (index lines tree) ↔ Stops lines [(tree, none)] := escapes_walk .empty

end ContractCoverage.Tree
