import ContractCoverage.Fault
import ContractCoverage.Source.Entry
import ContractCoverage.Tree.Weight

/-! Nodes of a syntax tree.

A node is an object with a kind, an identifier, a source range and further nodes.
Nothing guarantees that, so every question about a node may fail. A node of the old
form has its kind under `name` and its nodes under `children`. Two statements bound
what a node leads to, by weight: the items of a block weigh less than the block, and
the statements of a body no more than the body. -/
namespace ContractCoverage.Node

/-- The kind of a node, as it is written. -/
def kind (node : Value) : Except Fault Value := do
  if ← node.contains (.text "nodeType") then node.field "nodeType"
  else if ← node.contains (.text "name") then node.field "name"
  else throw .notANode

/-- The identifier of a node, null when it has none. -/
def id (node : Value) : Except ShapeFault Value :=
  (node.get? "id").map (·.getD .null)

/-- The range that a value in the place of a source entry stands for. -/
def readSource (v : Value) : Except Fault Range :=
  if v.isVoid then .ok .empty
  else match v with
    | .text entry => liftM (Range.parse entry.toList)
    | _ => .error (.shape .noFields)

/-- The source range of a node. -/
def src (node : Value) : Except Fault Range := do
  readSource (← node.field "src")

/-- The value that lists the nodes of a node. -/
def nodes (node : Value) : Except ShapeFault Value := do
  if ← node.contains (.text "nodes") then node.field "nodes"
  else if ← node.contains (.text "children") then node.field "children"
  else return .list []

/-- A single node under a name; null counts as none. -/
def child? (node : Value) (name : String) : Except ShapeFault (Option Value) :=
  (node.get? name).map (·.filter (!·.isNull))

/-! ### Kinds -/

/-- What matters about the kind of a node. -/
inductive Kind where
  /-- A file or a contract: a list of definitions. -/
  | container
  /-- A function or a modifier. -/
  | function
  /-- A statement with two arms. -/
  | branch
  /-- A statement with a body that is repeated. -/
  | loop
  /-- Statements in braces. -/
  | block
  /-- A statement or an operation that is counted by itself. -/
  | statement
  /-- Anything else, which is not looked into. -/
  | other
  deriving DecidableEq, Repr

/-- The names of the kinds of nodes. -/
def kindNames : List (String × Kind) :=
  [("SourceUnit", .container), ("ContractDefinition", .container),
   ("FunctionDefinition", .function), ("ModifierDefinition", .function),
   ("IfStatement", .branch),
   ("ForStatement", .loop), ("WhileStatement", .loop), ("DoWhileStatement", .loop),
   ("Block", .block), ("UncheckedBlock", .block),
   ("ExpressionStatement", .statement), ("Return", .statement), ("EmitStatement", .statement),
   ("VariableDeclarationStatement", .statement), ("BinaryOperation", .statement),
   ("UnaryOperation", .statement), ("Identifier", .statement), ("RevertStatement", .statement)]

/-- The kind that a value names. -/
def classify : Value → Except ShapeFault Kind
  | .text name => .ok ((kindNames.lookup name).getD .other)
  | .list _ | .object _ => .error .wrongKind
  | _ => .ok .other

/-- What matters about the kind of a node. -/
def kindOf (node : Value) : Except Fault Kind := do
  classify (← kind node)

/-- Only an object has a kind. -/
theorem exists_fields_of_kind {node k : Value} (h : kind node = .ok k) :
    ∃ fields, node = .object fields := by
  unfold kind at h
  cases node <;>
    simp only [Value.contains, Value.field, bind, Except.bind, lift_ok, lift_error, throw,
      throwThe, MonadExceptOf.throw, reduceCtorEq] at h
  case text => repeat' (split at h; · cases h)
               cases h
  case list => repeat' (split at h; · cases h)
               cases h
  case object fields => exact ⟨fields, rfl⟩

theorem exists_fields_of_kindOf {node : Value} {k : Kind} (h : kindOf node = .ok k) :
    ∃ fields, node = .object fields := by
  unfold kindOf at h
  cases hk : kind node with
  | error fault => rw [hk] at h; cases h
  | ok v => exact exists_fields_of_kind hk

/-! ### Statements -/

/-- The statements that a value lists; a value that says nothing lists none. -/
def listed (v : Value) : Except ShapeFault (List Value) :=
  if v.isVoid then .ok [] else v.elements

/-- The statements of a block. -/
def blockItems (node : Value) : Except ShapeFault (List Value) :=
  match node.get? "statements" with
  | .ok v => listed (v.getD .null)
  | .error fault => .error fault

/-- The statements of a body: those of a block, or the body itself when it has no braces. -/
def statements (body : Value) : Except Fault (List Value) :=
  match kindOf body with
  | .ok .block => (blockItems body).mapError .shape
  | .ok _ => .ok [body]
  | .error fault => .error fault

/-- The statements of a body that may be missing. -/
def statements? : Option Value → Except Fault (List Value)
  | none => .ok []
  | some body => statements body

/-! ### Weights -/

theorem weightItems_of_listed {v : Value} {xs : List Value} (h : listed v = .ok xs) :
    Value.weightItems xs ≤ v.weight := by
  unfold listed at h
  split at h
  · cases h
    exact Nat.zero_le _
  · exact Value.weightItems_of_elements h

theorem weightItems_of_blockItems {node : Value} {xs : List Value} (h : blockItems node = .ok xs) :
    Value.weightItems xs < node.weight := by
  cases node <;> simp only [blockItems, Value.get?, reduceCtorEq] at h
  case object fields =>
    cases hl : fields.lookup "statements" with
    | none =>
      rw [hl] at h
      cases h
      exact Value.weight_pos _
    | some v =>
      rw [hl] at h
      have hw := weightItems_of_listed h
      have hf := Value.fieldWeight_lt fields "statements"
      simp only [Value.fieldWeight, hl, Option.map_some, Option.getD_some] at hf hw
      omega

theorem weightItems_of_statements {body : Value} {xs : List Value}
    (h : statements body = .ok xs) : Value.weightItems xs ≤ body.weight := by
  unfold statements at h
  split at h
  · cases hb : blockItems body with
    | error fault => rw [hb] at h; cases h
    | ok ys =>
      rw [hb] at h
      cases h
      exact Nat.le_of_lt (weightItems_of_blockItems hb)
  · cases h
    simp [Value.weightItems]
  · cases h

/-- The weight of a node that may be missing. -/
def weight? (node : Option Value) : Nat := (node.map Value.weight).getD 0

theorem weightItems_of_statements? {body : Option Value} {xs : List Value}
    (h : statements? body = .ok xs) : Value.weightItems xs ≤ weight? body := by
  cases body with
  | none => cases h; exact Nat.zero_le _
  | some body => exact weightItems_of_statements h

end ContractCoverage.Node
