import ContractCoverage.Coverage.RangeTable
import ContractCoverage.Source.LineTable
import ContractCoverage.Tree.Node

/-! Indexing: the range table of a syntax tree.

Statements, functions and branches are listed in the order of the source. A function
counts as hit by its header, which ends with its parameters. The first statement of an
arm of a branch stands for that arm; a block passes this on to its own first statement.

Visiting a node takes two steps: `register` adds what the node itself stands for, and
`children` gives the nodes to visit next, each with the arm that it stands for. The
nodes still to be visited are kept in a list, and the walk ends because the children
of a node weigh less than the node (`weight_children`). -/
namespace ContractCoverage.Tree
open Node

/-- A node to be visited, with the arm of a branch that it stands for. -/
abbrev Pending := Value × Option BranchArm

/-! ### What a node stands for -/

/-- What a node is known by. -/
def identOf (node : Value) : Except ShapeFault Ident :=
  (Node.id node).map .mk

/-- Where a range ends. -/
def stopOf (r : Range) : Except ShapeFault Int :=
  match r.stop? with
  | some stop => .ok stop
  | none => .error .wrongKind

/-- A range from the start of another one up to an offset. -/
def upTo (r : Range) (stop : Int) : Except ShapeFault Range :=
  match r.offset with
  | some offset =>
    .ok { offset := some offset, length := some (stop - offset), fileId := r.fileId }
  | none => .error .wrongKind

/-- The header of a function: everything up to the end of its parameters. -/
def header (node : Value) (whole : Range) : Except Fault Range := do
  let stop ← match ← child? node "parameters" with
    | some parameters => do stopOf (← src parameters)
    | none => stopOf whole
  upTo whole stop

/-- The name of a function. Constructors and functions without a name have names of their own. -/
def functionName (node : Value) : Except ShapeFault Value := do
  let isConstructor := (← node.get? "isConstructor").getD .null
  let kind := (← node.get? "kind").getD (.text "fallback")
  let name := (← node.get? "name").getD .null
  if !isConstructor.isVoid || kind.same (.text "constructor") then
    return .text "(constructor)"
  else if !name.isVoid then return name
  else return .text ("(" ++ (← kind.displayed) ++ ")")

/-- Adds a function. -/
def addFunction (lines : LineTable) (t : RangeTable) (node : Value) : Except Fault RangeTable := do
  let whole ← src node
  let header ← header node whole
  let name ← functionName node
  let span ← lines.resolveRange header
  let id ← identOf node
  t.addAll [.function id (.range whole) name (some span)]

/-- Adds a statement, perhaps standing for an arm of a branch. -/
def addStatement (lines : LineTable) (t : RangeTable) (parent : Option BranchArm) (node : Value) :
    Except Fault RangeTable := do
  let range ← src node
  let span ← lines.resolveRange range
  let id ← identOf node
  t.addAll [.statement id (.range range) (some span) parent]

/-- The body of the first arm of a branch, which has to be there. -/
def trueBody (node : Value) : Except ShapeFault Value := do
  match ← child? node "trueBody" with
  | some body => return body
  | none => throw .noFields

/-- Adds a branch. Its guard is what precedes the first arm; a missing second arm is located where
the first one is. -/
def addBranch (lines : LineTable) (t : RangeTable) (node : Value) : Except Fault RangeTable := do
  let whole ← src node
  let trueRange ← src (← trueBody node)
  let trueSpan ← lines.resolveRange trueRange
  let falseSpan ← match ← child? node "falseBody" with
    | some body => do lines.resolveRange (← src body)
    | none => pure trueSpan
  let guardRange ← whole.before trueRange
  let span ← lines.resolveRange guardRange
  let id ← identOf node
  t.addAll [.branch id 2 "if" (some span) [some trueSpan, some falseSpan]]

/-- Adds what a node itself stands for. -/
def register (lines : LineTable) (t : RangeTable) (parent : Option BranchArm) (node : Value) :
    Except Fault RangeTable := do
  match ← kindOf node with
  | .function => addFunction lines t node
  | .branch => addBranch lines t node
  | .loop | .statement => addStatement lines t parent node
  | .container | .block | .other => return t

/-! ### Which nodes come next -/

/-- Nodes that stand for no arm. -/
def plain (nodes : List Value) : List Pending := nodes.map (·, none)

/-- Nodes of which the first stands for an arm. -/
def standing (arm : Option BranchArm) : List Value → List Pending
  | [] => []
  | first :: rest => (first, arm) :: plain rest

/-- The definitions in a file or a contract. -/
def definitions (node : Value) : Except ShapeFault (List Value) :=
  match nodes node with
  | .ok v => v.elements
  | .error fault => .error fault

/-- The statements in the body of a function or a loop. -/
def bodyStatements (node : Value) (name : String) : Except Fault (List Value) :=
  match child? node name with
  | .ok body => statements? body
  | .error fault => .error (.shape fault)

/-- The guard of a branch, where it has one. -/
def guard (node : Value) : Except ShapeFault (List Value) :=
  (child? node "condition").map Option.toList

/-- The nodes to visit after a node, in the order of the source. -/
def children (node : Value) (parent : Option BranchArm) : Except Fault (List Pending) := do
  match ← kindOf node with
  | .container => return plain (← definitions node)
  | .function | .loop => return plain (← bodyStatements node "body")
  | .block => return standing parent (← blockItems node)
  | .branch =>
    let id ← identOf node
    let guard ← guard node
    let trueArm ← bodyStatements node "trueBody"
    let falseArm ← bodyStatements node "falseBody"
    return plain guard ++ standing (some ⟨id, 0⟩) trueArm ++ standing (some ⟨id, 1⟩) falseArm
  | .statement | .other => return []

/-! ### Weights -/

/-- The weight of nodes to be visited. -/
def weight (pending : List Pending) : Nat := Value.weightItems (pending.map (·.1))

theorem weight_append (xs ys : List Pending) : weight (xs ++ ys) = weight xs + weight ys := by
  simp [weight, Value.weightItems_append]

theorem weight_plain (nodes : List Value) : weight (plain nodes) = Value.weightItems nodes := by
  simp [weight, plain, Function.comp_def]

theorem weight_standing (arm : Option BranchArm) (nodes : List Value) :
    weight (standing arm nodes) = Value.weightItems nodes := by
  cases nodes with
  | nil => rfl
  | cons v vs =>
    have := weight_plain vs
    simp only [weight] at this
    simp only [standing, weight, List.map_cons, Value.weightItems, this]

theorem weight_child? {fields : List (String × Value)} {name : String} {body : Option Value}
    (h : child? (.object fields) name = .ok body) :
    weight? body ≤ Value.fieldWeight fields name := by
  simp only [child?, Value.get?, Except.map, Except.ok.injEq] at h
  subst h
  cases hl : fields.lookup name with
  | none => exact Nat.zero_le _
  | some v =>
    simp only [Value.fieldWeight, hl, Option.map_some, Option.getD_some, Option.filter_some]
    split <;> simp [weight?]

theorem weight_bodyStatements {fields : List (String × Value)} {name : String} {xs : List Value}
    (h : bodyStatements (.object fields) name = .ok xs) :
    Value.weightItems xs ≤ Value.fieldWeight fields name := by
  unfold bodyStatements at h
  split at h
  · next body hb => exact Nat.le_trans (weightItems_of_statements? h) (weight_child? hb)
  · cases h

theorem weight_definitions {fields : List (String × Value)} {xs : List Value}
    (h : definitions (.object fields) = .ok xs) :
    Value.weightItems xs < (Value.object fields).weight := by
  have ofField : ∀ {name : String} {v : Value}, Value.field (.object fields) name = .ok v →
      v.elements = .ok xs → Value.weightItems xs < (Value.object fields).weight := by
    intro name v hf he
    have hw := Value.weightItems_of_elements he
    have hl := Value.fieldWeight_lt fields name
    simp only [Value.fieldWeight, Value.lookup_of_field hf, Option.map_some,
      Option.getD_some] at hl
    omega
  unfold definitions at h
  split at h
  · next v hv =>
    simp only [nodes, Value.contains, bind, Except.bind, pure, Except.pure] at hv
    split at hv
    · exact ofField hv h
    · split at hv
      · exact ofField hv h
      · cases hv
        cases h
        exact Value.weight_pos _
  · cases h

theorem weight_guard {fields : List (String × Value)} {xs : List Value}
    (h : guard (.object fields) = .ok xs) :
    Value.weightItems xs ≤ Value.fieldWeight fields "condition" := by
  unfold guard at h
  cases hc : child? (.object fields) "condition" with
  | error fault => rw [hc] at h; cases h
  | ok node =>
    rw [hc] at h
    cases h
    have := weight_child? hc
    cases node with
    | none => exact Nat.zero_le _
    | some v => simpa [weight?, Value.weightItems] using this

/-- What comes after a node weighs less than the node. -/
theorem weight_children {node : Value} {parent : Option BranchArm} {next : List Pending}
    (h : children node parent = .ok next) : weight next < node.weight := by
  unfold children at h
  cases hk : kindOf node with
  | error fault => rw [hk] at h; cases h
  | ok k =>
    obtain ⟨fields, rfl⟩ := exists_fields_of_kindOf hk
    have ofBody : ∀ {xs : List Value}, bodyStatements (.object fields) "body" = .ok xs →
        weight (plain xs) < (Value.object fields).weight := by
      intro xs hx
      rw [weight_plain]
      exact Nat.lt_of_le_of_lt (weight_bodyStatements hx) (Value.fieldWeight_lt fields _)
    rw [hk] at h
    cases k <;> simp only [bind, Except.bind, pure, Except.pure] at h
    case container =>
      split at h <;> cases h
      next hd =>
        rw [weight_plain]
        exact weight_definitions (eq_ok_of_lift hd)
    case function =>
      split at h <;> cases h
      exact ofBody ‹_›
    case loop =>
      split at h <;> cases h
      exact ofBody ‹_›
    case block =>
      split at h <;> cases h
      next hb =>
        rw [weight_standing]
        exact weightItems_of_blockItems (eq_ok_of_lift hb)
    case branch =>
      split at h
      · cases h
      · split at h
        · cases h
        · next hg =>
          split at h
          · cases h
          · next ht =>
            split at h <;> cases h
            next hf =>
              have hg := weight_guard (eq_ok_of_lift hg)
              have ht := weight_bodyStatements ht
              have hf := weight_bodyStatements hf
              have hs : Value.fieldWeights fields ["condition", "trueBody", "falseBody"] ≤
                  Value.weightFields fields := Value.fieldWeights_le fields (by decide)
              simp only [weight_append, weight_plain, weight_standing, Value.fieldWeights,
                Value.weight] at *
              omega
    case statement => cases h; exact Value.weight_pos _
    case other => cases h; exact Value.weight_pos _

/-! ### The walk -/

/-- Visits pending nodes, the first one first and what comes after it before the others. -/
def walk (lines : LineTable) (t : RangeTable) (pending : List Pending) :
    Except Fault RangeTable :=
  match pending with
  | [] => .ok t
  | (node, parent) :: rest =>
    match register lines t parent node with
    | .error fault => .error fault
    | .ok t =>
      match _h : children node parent with
      | .error fault => .error fault
      | .ok next => walk lines t (next ++ rest)
termination_by weight pending
decreasing_by
  have hc := weight_children _h
  have hr := weight_append next rest
  have hp : weight ((node, parent) :: rest) = node.weight + weight rest := rfl
  omega

/-- The range table of a syntax tree in a file with the given lines. -/
def index (lines : LineTable) (tree : Value) : Except Fault RangeTable :=
  walk lines .empty [(tree, none)]

end ContractCoverage.Tree
