import ContractCoverage.Proofs.Tree.Walk

/-! Faults of syntax trees that are not reported as faults of compiler output.

Of the faults that adding a node may end with, three are reported: an entry that is no
source range, a position that is not in the file and a field that is missing. All others
escape, and whether one does depends on which question about the node is the first that
has no answer. The predicates follow the questions in their order, and there is one lemma
for each: a chain lets a fault escape at its first step or, where that has an answer, at a
later one (`escapes_bind_congr`). `escapes_register` puts them together. -/
namespace ContractCoverage

/-! ### Faults that escape -/

/-- Whether a fault met in a syntax tree is reported as one of compiler output. -/
def Fault.isReported : Fault → Bool
  | .compiler _ | .position _ | .shape (.missingField _) => true
  | _ => false

/-- A step ends with a fault that is not reported. -/
def Escapes {α : Type} (x : Except Fault α) : Prop :=
  ∃ fault, x = .error fault ∧ fault.isReported = false

/-- A position cannot be found, and the numbers in the reason for it are too long to be written. -/
def Unwritable {α : Type} (x : Except PositionFault α) : Prop :=
  ∃ fault, x = .error fault ∧ fault.numerals.all Text.Numeral.isWritable = false

section Escapes
variable {α β : Type}

@[simp] theorem not_escapes_ok (a : α) : ¬ Escapes (.ok a) := by
  rintro ⟨_, ⟨⟩, -⟩

@[simp] theorem not_escapes_pure (a : α) : ¬ Escapes (pure a) := not_escapes_ok a

/-- A chain lets a fault escape where its first step does, or where that succeeds and the rest
does. -/
theorem escapes_bind {x : Except Fault α} {f : α → Except Fault β} :
    Escapes (x >>= f) ↔ Escapes x ∨ ∃ a, x = .ok a ∧ Escapes (f a) := by
  cases x with
  | error fault =>
    constructor
    · rintro ⟨_, ⟨⟩, hfault⟩
      exact .inl ⟨fault, rfl, hfault⟩
    · rintro (⟨_, ⟨⟩, hfault⟩ | ⟨_, ⟨⟩, -⟩)
      exact ⟨fault, rfl, hfault⟩
  | ok a =>
    rw [ok_bind]
    constructor
    · exact fun h => .inr ⟨a, rfl, h⟩
    · rintro (h | ⟨_, ⟨⟩, h⟩)
      · exact absurd h (not_escapes_ok a)
      · exact h

theorem escapes_error (fault : Fault) :
    Escapes (.error fault : Except Fault α) ↔ fault.isReported = false := by
  constructor
  · rintro ⟨_, ⟨⟩, h⟩
    exact h
  · exact fun h => ⟨fault, rfl, h⟩

/-- Faults of position escape when they cannot be written. -/
theorem escapes_position {x : Except PositionFault α} :
    Escapes (liftM x : Except Fault α) ↔ Unwritable x := by
  cases x with
  | ok a =>
    show Escapes (.ok a) ↔ _
    simp [Unwritable]
  | error fault =>
    show Escapes (.error (.ofPosition fault)) ↔ _
    rw [escapes_error, Fault.ofPosition, Unwritable]
    split
    · next h =>
      constructor
      · exact fun hr => by cases hr
      · rintro ⟨_, ⟨⟩, hr⟩
        rw [h] at hr
        cases hr
    · next h => exact ⟨fun _ => ⟨fault, rfl, Bool.eq_false_iff.2 h⟩, fun _ => rfl⟩

theorem escapes_bind_congr {x : Except Fault α} {f : α → Except Fault β} {bad : Prop}
    {later : α → Prop} (hx : Escapes x ↔ bad)
    (hf : ∀ a, x = .ok a → (Escapes (f a) ↔ later a)) :
    Escapes (x >>= f) ↔ bad ∨ ∃ a, x = .ok a ∧ later a := by
  rw [escapes_bind, hx]
  apply or_congr_right
  apply exists_congr
  exact fun a => and_congr_right (hf a)

theorem escapes_locate {x : Except PositionFault α} {f : α → Except Fault β} {later : α → Prop}
    (hf : ∀ a, x = .ok a → (Escapes (f a) ↔ later a)) :
    Escapes ((liftM x : Except Fault α) >>= f) ↔ Unwritable x ∨ ∃ a, x = .ok a ∧ later a := by
  have hlift : ∀ a, (liftM x : Except Fault α) = .ok a ↔ x = .ok a := fun a => mapError_eq_ok_iff
  rw [escapes_bind_congr escapes_position fun a ha => hf a ((hlift a).1 ha)]
  simp only [hlift]

end Escapes

namespace Tree
open Node

/-! ### Nodes and their fields -/

/-- A node: an object that says what it is. -/
def IsNode (node : Value) : Prop :=
  ∃ fields kind, node = .object fields ∧
    (fields.lookup "nodeType").or (fields.lookup "name") = some kind ∧ kind.isScalar = true

/-- In the place of the source range is something else than a text, or there is no such place. -/
def BadSource : Value → Prop
  | .object fields => ∃ v, fields.lookup "src" = some v ∧ v.isVoid = false ∧ ∀ s, v ≠ .text s
  | _ => True

/-- A list or an object stands in the place of the identifier. -/
def BadIdent (node : Value) : Prop := ∃ v, Node.id node = .ok v ∧ v.isScalar = false

/-- In the place of the statements of a block is something that has no elements. -/
def BadItems (node : Value) : Prop :=
  ∃ v, node.get? "statements" = .ok (some v) ∧ v.isVoid = false ∧ ∃ fault, v.elements = .error fault

/-- In the place of the definitions is something that has no elements. -/
def BadDefinitions (node : Value) : Prop := ∃ v fault, nodes node = .ok v ∧ v.elements = .error fault

/-- In the place of a body is something that is no node, or a block without statements. -/
def BadBody (node : Value) (name : String) : Prop :=
  ∃ body, child? node name = .ok (some body) ∧
    (¬ IsNode body ∨ kindOf body = .ok .block ∧ BadItems body)

theorem kind_object (fields : List (String × Value)) :
    kind (.object fields) =
      match (fields.lookup "nodeType").or (fields.lookup "name") with
      | some v => .ok v
      | none => .error .notANode := by
  simp only [kind, Value.contains_object, lift_ok, ok_bind, Value.field]
  cases fields.lookup "nodeType" with
  | some v => rfl
  | none => cases fields.lookup "name" <;> rfl

/-- What is not an object has no kind, for a reason that is not reported. -/
theorem kind_of_no_object {node : Value} (h : ∀ fields, node ≠ .object fields) :
    ∃ fault, kind node = .error fault ∧ fault.isReported = false := by
  cases node with
  | object fields => exact absurd rfl (h fields)
  | text s =>
    simp only [kind, Value.contains, Value.field, lift_ok, lift_error, ok_bind]
    split
    · exact ⟨_, rfl, rfl⟩
    · split <;> exact ⟨_, rfl, rfl⟩
  | list items =>
    simp only [kind, Value.contains, Value.field, lift_ok, lift_error, ok_bind]
    split
    · exact ⟨_, rfl, rfl⟩
    · split <;> exact ⟨_, rfl, rfl⟩
  | _ => exact ⟨_, rfl, rfl⟩

/-- A node has a kind, and whatever else has none for a reason that is not reported. -/
theorem kindOf_cases (node : Value) :
    (IsNode node ∧ ∃ k, kindOf node = .ok k) ∨
      ¬ IsNode node ∧ ∃ fault, kindOf node = .error fault ∧ fault.isReported = false := by
  by_cases hobject : ∃ fields, node = .object fields
  · obtain ⟨fields, rfl⟩ := hobject
    rw [kindOf, kind_object]
    cases hkind : (fields.lookup "nodeType").or (fields.lookup "name") with
    | none =>
      refine .inr ⟨?_, _, rfl, rfl⟩
      rintro ⟨_, _, ⟨⟩, hsome, -⟩
      rw [hkind] at hsome
      cases hsome
    | some v =>
      have hnode : IsNode (.object fields) ↔ v.isScalar = true := by
        constructor
        · rintro ⟨_, _, ⟨⟩, hsome, hscalar⟩
          rw [hkind] at hsome
          cases hsome
          exact hscalar
        · exact fun h => ⟨fields, v, rfl, hkind, h⟩
      rw [hnode, ok_bind]
      cases v with
      | list _ | object _ => exact .inr ⟨Bool.false_ne_true, _, rfl, rfl⟩
      | _ => exact .inl ⟨rfl, _, rfl⟩
  · obtain ⟨fault, hfault, hreported⟩ := kind_of_no_object fun fields h => hobject ⟨fields, h⟩
    refine .inr ⟨?_, fault, ?_, hreported⟩
    · rintro ⟨fields, _, hnode, -⟩
      exact hobject ⟨fields, hnode⟩
    · rw [kindOf, hfault]
      rfl

/-- An entry that cannot be read as a source range is reported when it is a text. -/
theorem escapes_readSource {v : Value} :
    Escapes (readSource v) ↔ v.isVoid = false ∧ ∀ s, v ≠ .text s := by
  unfold readSource
  by_cases hvoid : v.isVoid = true
  · rw [if_pos hvoid]
    simp [hvoid]
  · rw [if_neg hvoid]
    cases v with
    | text entry =>
      have hreported : ¬ Escapes (liftM (Range.parse entry.toList) : Except Fault Range) := by
        cases Range.parse entry.toList with
        | ok r => exact not_escapes_ok r
        | error fault =>
          rintro ⟨_, ⟨⟩, hfault⟩
          cases hfault
      exact ⟨fun h => absurd h hreported, fun h => absurd rfl (h.2 entry)⟩
    | _ =>
      refine ⟨fun _ => ⟨Bool.eq_false_iff.2 hvoid, fun s h => by cases h⟩, fun _ => ?_⟩
      exact (escapes_error _).2 rfl

theorem escapes_src {node : Value} : Escapes (src node) ↔ BadSource node := by
  cases node with
  | object fields =>
    rw [src, Value.field, BadSource]
    cases fields.lookup "src" with
    | none => simp [lift_error, escapes_bind, escapes_error, Fault.isReported]
    | some v => simp [lift_ok, ok_bind, escapes_readSource]
  | _ => exact ⟨fun _ => trivial, fun _ => ⟨_, rfl, rfl⟩⟩

theorem exists_fields_of_src {node : Value} {r : Range} (h : src node = .ok r) :
    ∃ fields, node = .object fields := by
  cases node with
  | object fields => exact ⟨fields, rfl⟩
  | _ => cases h

/-! ### Places and identifiers -/

/-- A position cannot be found for a reason that cannot be written, or the node has a list or an
object in the place of its identifier. -/
def BadPlace (lines : LineTable) (node : Value) (r : Range) : Prop :=
  Unwritable (lines.resolveRange r) ∨ ∃ span, lines.resolveRange r = .ok span ∧ BadIdent node

/-- A step is refused only for an identifier that is no key. -/
def Refuses (step : Ident → Registration) : Prop :=
  ∀ (t : RangeTable) (id : Ident),
    (id.isKey = true → ∃ t', t.add (step id) = (t', .ok ())) ∧
      (id.isKey = false → t.add (step id) = (t, .error (.shape .wrongKind)))

theorem refuses_statement (r : Range) (span : Option Span) (link : Option BranchArm) :
    Refuses fun id => .statement id (.range r) span link := by
  intro t id
  constructor <;> intro h <;> simp only [RangeTable.add, RangeTable.list, Ident.check, h]
  · exact ⟨_, rfl⟩
  · rfl

theorem refuses_function (r : Range) (name : Value) (span : Option Span) :
    Refuses fun id => .function id (.range r) name span := by
  intro t id
  constructor <;> intro h <;> simp only [RangeTable.add, RangeTable.list, Ident.check, h]
  · exact ⟨_, rfl⟩
  · rfl

theorem refuses_branch (guard first second : Span) :
    Refuses fun id => .branch id 2 "if" (some guard) [some first, some second] := by
  intro t id
  constructor <;> intro h <;> simp only [RangeTable.add, RangeTable.list, Ident.check, h]
  · exact ⟨_, rfl⟩
  · rfl

/-- Listing a node lets a fault escape when the identifier of the node is no key. -/
theorem escapes_listing {fields : List (String × Value)} {step : Ident → Registration}
    (h : Refuses step) (t : RangeTable) :
    Escapes ((liftM (identOf (.object fields)) : Except Fault Ident) >>= fun id =>
      t.addAll [step id]) ↔ BadIdent (.object fields) := by
  have hid : Node.id (.object fields) = .ok ((fields.lookup "id").getD .null) := rfl
  have hident : identOf (.object fields) = .ok ⟨(fields.lookup "id").getD .null⟩ := rfl
  rw [hident, lift_ok, ok_bind, BadIdent, hid]
  generalize (fields.lookup "id").getD .null = v
  obtain ⟨hkey, hno⟩ := h t ⟨v⟩
  rw [Ident.isKey_eq_isScalar] at hkey hno
  rw [RangeTable.addAll]
  by_cases hscalar : v.isScalar = true
  · obtain ⟨t', ht'⟩ := hkey hscalar
    rw [ht']
    simp [hscalar, RangeTable.addAll]
  · rw [hno (Bool.eq_false_iff.2 hscalar)]
    simp [hscalar, escapes_error, Fault.isReported]

theorem escapes_place {lines : LineTable} {t : RangeTable} {fields : List (String × Value)}
    {r : Range} {step : Span → Ident → Registration} (h : ∀ span, Refuses (step span)) :
    Escapes ((liftM (lines.resolveRange r) : Except Fault Span) >>= fun span =>
      (liftM (identOf (.object fields)) : Except Fault Ident) >>= fun id =>
        t.addAll [step span id]) ↔ BadPlace lines (.object fields) r :=
  escapes_locate fun span _ => escapes_listing (h span) t

/-! ### What a node stands for -/

/-- A statement that cannot be added for a reason that is not reported. -/
def BadStatement (lines : LineTable) (node : Value) : Prop :=
  BadSource node ∨ ∃ r, src node = .ok r ∧ BadPlace lines node r

theorem escapes_addStatement {lines : LineTable} {t : RangeTable} {link : Option BranchArm}
    {node : Value} : Escapes (addStatement lines t link node) ↔ BadStatement lines node := by
  refine escapes_bind_congr escapes_src fun r hr => ?_
  obtain ⟨fields, rfl⟩ := exists_fields_of_src hr
  exact escapes_place fun span => refuses_statement r (some span) link

/-- The end of a header cannot be told: by the parameters, where there are some, or by the function
itself. -/
def BadHeader (node : Value) (whole : Range) : Prop :=
  (∃ p, child? node "parameters" = .ok (some p) ∧
    (BadSource p ∨ ∃ r, src p = .ok r ∧ (r.stop? = none ∨ whole.offset = none))) ∨
  child? node "parameters" = .ok none ∧ whole.stop? = none

/-- The kind of a function without a name stands in for the name, and cannot be written. -/
def BadName : Value → Prop
  | .object fields =>
    let isConstructor := (fields.lookup "isConstructor").getD .null
    let kind := (fields.lookup "kind").getD (.text "fallback")
    isConstructor.isVoid = true ∧ kind.same (.text "constructor") = false ∧
      ((fields.lookup "name").getD .null).isVoid = true ∧
      kind.numerals.all Text.Numeral.isWritable = false
  | _ => False

/-- A function that cannot be added for a reason that is not reported. -/
def BadFunction (lines : LineTable) (node : Value) : Prop :=
  BadSource node ∨ ∃ whole, src node = .ok whole ∧
    (BadHeader node whole ∨ ∃ r, header node whole = .ok r ∧
      (BadName node ∨ ∃ name, functionName node = .ok name ∧ BadPlace lines node r))

theorem child?_object (fields : List (String × Value)) (name : String) :
    child? (.object fields) name = .ok ((fields.lookup name).filter (!·.isNull)) := rfl

/-- A range cannot be cut off at an end that is not known, or when its start is not known. -/
theorem escapes_cut (whole r : Range) :
    Escapes ((liftM (stopOf r) : Except Fault Int) >>= fun stop =>
      (liftM (upTo whole stop) : Except Fault Range)) ↔ r.stop? = none ∨ whole.offset = none := by
  unfold stopOf
  cases r.stop? with
  | none => simp [lift_error, escapes_bind, escapes_error, Fault.isReported]
  | some stop =>
    rw [lift_ok, ok_bind]
    unfold upTo
    cases whole.offset with
    | none => simp [lift_error, escapes_error, Fault.isReported]
    | some offset => simp [lift_ok]

theorem offset_of_stop? {r : Range} (h : r.offset = none) : r.stop? = none := by
  rw [Range.stop?, h]
  rfl

theorem escapes_header (fields : List (String × Value)) (whole : Range) :
    Escapes (header (.object fields) whole) ↔ BadHeader (.object fields) whole := by
  unfold header BadHeader
  rw [child?_object, lift_ok, ok_bind]
  cases (fields.lookup "parameters").filter (!·.isNull) with
  | none =>
    refine (escapes_cut whole whole).trans ?_
    simp only [Except.ok.injEq, reduceCtorEq, false_and, exists_false, false_or, true_and]
    exact or_iff_left_of_imp offset_of_stop?
  | some p =>
    refine (escapes_bind_congr escapes_src fun r _ => escapes_cut whole r).trans ?_
    simp only [Except.ok.injEq, Option.some.injEq, exists_eq_left', reduceCtorEq, false_and,
      or_false]

theorem functionName_cases (fields : List (String × Value)) :
    BadName (.object fields) ∧ functionName (.object fields) = .error .tooManyDigits ∨
      ¬ BadName (.object fields) ∧ ∃ name, functionName (.object fields) = .ok name := by
  simp only [functionName, BadName, Value.get?, ok_bind]
  generalize (fields.lookup "isConstructor").getD .null = isConstructor
  generalize (fields.lookup "kind").getD (.text "fallback") = kind
  generalize (fields.lookup "name").getD .null = name
  split
  · next h => exact .inr ⟨fun hbad => by simp [hbad] at h, _, rfl⟩
  · next h =>
    split
    · next hname => exact .inr ⟨fun hbad => by simp [hbad] at hname, _, rfl⟩
    · next hname =>
      simp only [Bool.not_eq_true', Bool.or_eq_true, not_or, Bool.not_eq_false,
        Bool.not_eq_true] at h hname
      rw [Value.displayed, written]
      split
      · next hwritable => exact .inr ⟨fun hbad => by simp [hwritable] at hbad, _, rfl⟩
      · next hlong =>
        exact .inl ⟨⟨h.1, h.2, hname, Bool.eq_false_iff.2 hlong⟩, rfl⟩

theorem escapes_addFunction {lines : LineTable} {t : RangeTable} {node : Value} :
    Escapes (addFunction lines t node) ↔ BadFunction lines node := by
  refine escapes_bind_congr escapes_src fun whole hwhole => ?_
  obtain ⟨fields, rfl⟩ := exists_fields_of_src hwhole
  refine escapes_bind_congr (escapes_header fields whole) fun r _ => ?_
  rcases functionName_cases fields with ⟨hbad, hname⟩ | ⟨hgood, name, hname⟩
  · rw [hname, lift_error]
    simp [escapes_bind, escapes_error, Fault.isReported, hbad]
  · rw [hname, lift_ok, ok_bind]
    simp only [hgood, Except.ok.injEq, exists_eq_left', false_or]
    exact escapes_place fun span => refuses_function whole name (some span)

/-- The second arm of a branch is there and cannot be located for a reason that is not reported. -/
def BadElse (lines : LineTable) (node : Value) : Prop :=
  ∃ body, child? node "falseBody" = .ok (some body) ∧
    (BadSource body ∨ ∃ r, src body = .ok r ∧ Unwritable (lines.resolveRange r))

/-- The second arm of a branch can be located, if it is there. -/
def HasElse (lines : LineTable) (node : Value) : Prop :=
  ∀ body, child? node "falseBody" = .ok (some body) →
    ∃ r span, src body = .ok r ∧ lines.resolveRange r = .ok span

/-- The guard of a branch cannot be told from its first arm or located, or the branch has no
identifier that can be a key. -/
def BadGuard (lines : LineTable) (node : Value) (whole arm : Range) : Prop :=
  Unwritable (whole.before arm) ∨ ∃ guard, whole.before arm = .ok guard ∧ BadPlace lines node guard

/-- A branch that cannot be added for a reason that is not reported. -/
def BadBranch (lines : LineTable) (node : Value) : Prop :=
  BadSource node ∨ ∃ whole, src node = .ok whole ∧
    (child? node "trueBody" = .ok none ∨ ∃ body, child? node "trueBody" = .ok (some body) ∧
      (BadSource body ∨ ∃ arm, src body = .ok arm ∧
        (Unwritable (lines.resolveRange arm) ∨ ∃ span, lines.resolveRange arm = .ok span ∧
          (BadElse lines node ∨ HasElse lines node ∧ BadGuard lines node whole arm))))

theorem escapes_guard {lines : LineTable} {t : RangeTable} {fields : List (String × Value)}
    {whole arm : Range} (first second : Span) :
    Escapes ((liftM (whole.before arm) : Except Fault Range) >>= fun guard =>
      (liftM (lines.resolveRange guard) : Except Fault Span) >>= fun span =>
        (liftM (identOf (.object fields)) : Except Fault Ident) >>= fun id =>
          t.addAll [.branch id 2 "if" (some span) [some first, some second]]) ↔
      BadGuard lines (.object fields) whole arm :=
  escapes_locate fun _ _ => escapes_place fun span => refuses_branch span first second

theorem escapes_addBranch {lines : LineTable} {t : RangeTable} {node : Value} :
    Escapes (addBranch lines t node) ↔ BadBranch lines node := by
  refine escapes_bind_congr escapes_src fun whole hwhole => ?_
  obtain ⟨fields, rfl⟩ := exists_fields_of_src hwhole
  rw [trueBody, child?_object, ok_bind]
  cases (fields.lookup "trueBody").filter (!·.isNull) with
  | none =>
    simp [throw, throwThe, MonadExceptOf.throw, lift_error, escapes_bind, escapes_error,
      Fault.isReported]
  | some body =>
    simp only [Except.ok.injEq, reduceCtorEq, Option.some.injEq, exists_eq_left', false_or]
    refine escapes_bind_congr escapes_src fun arm _ => ?_
    refine escapes_locate fun span _ => ?_
    rw [BadElse, HasElse, child?_object, lift_ok, ok_bind]
    cases (fields.lookup "falseBody").filter (!·.isNull) with
    | none =>
      simp only [Except.ok.injEq, reduceCtorEq, false_and, exists_false, false_or, false_implies,
        implies_true, true_and]
      exact escapes_guard span span
    | some other =>
      refine (escapes_bind_congr escapes_src fun r _ =>
        escapes_locate fun second _ => escapes_guard span second).trans ?_
      simp only [Except.ok.injEq, Option.some.injEq, exists_eq_left', forall_eq']
      constructor
      · rintro (hsource | ⟨r, hr, hunwritable | ⟨second, hsecond, hguard⟩⟩)
        · exact .inl (.inl hsource)
        · exact .inl (.inr ⟨r, hr, hunwritable⟩)
        · exact .inr ⟨⟨r, second, hr, hsecond⟩, hguard⟩
      · rintro ((hsource | ⟨r, hr, hunwritable⟩) | ⟨⟨r, second, hr, hsecond⟩, hguard⟩)
        · exact .inl hsource
        · exact .inr ⟨r, hr, .inl hunwritable⟩
        · exact .inr ⟨r, hr, .inr ⟨second, hsecond, hguard⟩⟩

/-- What a node itself stands for cannot be added for a reason that is not reported. -/
inductive BadOwn (lines : LineTable) (node : Value) : Prop
  | unnamed (h : ¬ IsNode node)
  | function (hkind : kindOf node = .ok .function) (h : BadFunction lines node)
  | branch (hkind : kindOf node = .ok .branch) (h : BadBranch lines node)
  | statement (hkind : kindOf node = .ok .loop ∨ kindOf node = .ok .statement)
    (h : BadStatement lines node)

theorem escapes_register {lines : LineTable} {t : RangeTable} {link : Option BranchArm}
    {node : Value} : Escapes (register lines t link node) ↔ BadOwn lines node := by
  unfold register
  rcases kindOf_cases node with ⟨hnode, kind, hkind⟩ | ⟨hnode, fault, hfault, hreported⟩
  · rw [hkind, ok_bind]
    constructor
    · intro h
      cases kind with
      | function => exact .function hkind (escapes_addFunction.1 h)
      | branch => exact .branch hkind (escapes_addBranch.1 h)
      | loop => exact .statement (.inl hkind) (escapes_addStatement.1 h)
      | statement => exact .statement (.inr hkind) (escapes_addStatement.1 h)
      | _ => exact absurd h (not_escapes_ok t)
    · rintro (h | ⟨hown, h⟩ | ⟨hown, h⟩ | ⟨hown | hown, h⟩)
      · exact absurd hnode h
      all_goals
        rw [hkind] at hown
        cases hown
      · exact escapes_addFunction.2 h
      · exact escapes_addBranch.2 h
      · exact escapes_addStatement.2 h
      · exact escapes_addStatement.2 h
  · exact ⟨fun _ => .unnamed hnode, fun _ => escapes_bind.2 (.inl ⟨fault, hfault, hreported⟩)⟩

end Tree

end ContractCoverage
