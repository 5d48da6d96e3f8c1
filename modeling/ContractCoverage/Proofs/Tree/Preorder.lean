import ContractCoverage.Proofs.Tree.Walk

/-! The walk is the recursion.

Visiting a node in pre-order adds what the node stands for and then visits the nodes that it holds,
each with everything below it (`preorder`). What a node holds is read before any of these is
visited, so a fault in reading comes before the faults of the nodes.

The loop keeps the nodes that are still to be visited on a stack. A turn takes the last one and puts
the nodes that it holds in its place, the first of them last (`loop`). The stack read backwards is
the list of the walk, every turn makes it lighter (`loop_eq_walk`), and nodes that are pending
together are visited one after the other (`walk_append`). So the loop ends, with the answer of the
recursion (`index_eq_preorder`). -/
namespace ContractCoverage.Tree
open Node

/-! ### The recursion -/

/-- An answer with the equation that says where it comes from. -/
def attach {ε α : Type} (x : Except ε α) : Except ε { a // x = .ok a } :=
  match x with
  | .ok a => .ok ⟨a, rfl⟩
  | .error fault => .error fault

theorem attach_bind {ε α β : Type} {x : Except ε α} {f : { a // x = .ok a } → Except ε β}
    {g : α → Except ε β} (h : ∀ a ha, f ⟨a, ha⟩ = g a) : attach x >>= f = x >>= g := by
  cases x with
  | error fault => rfl
  | ok a => exact h a rfl

theorem lift_attach_bind {α β : Type} {x : Except ShapeFault α}
    {f : { a // x = .ok a } → Except Fault β} {g : α → Except Fault β}
    (h : ∀ a ha, f ⟨a, ha⟩ = g a) :
    (liftM (attach x) : Except Fault _) >>= f = (liftM x : Except Fault _) >>= g := by
  cases x with
  | error fault => rfl
  | ok a => exact h a rfl

section Held
variable {node : Value} {kind : Kind} (hkind : kindOf node = .ok kind) {nodes : List Value}
include hkind

theorem weight_of_body {name : String} (h : bodyStatements node name = .ok nodes) :
    Value.weightItems nodes < node.weight := by
  obtain ⟨fields, rfl⟩ := exists_fields_of_kindOf hkind
  exact Nat.lt_of_le_of_lt (weight_bodyStatements h) (Value.fieldWeight_lt fields name)

theorem weight_of_guard (h : guard node = .ok nodes) : Value.weightItems nodes < node.weight := by
  obtain ⟨fields, rfl⟩ := exists_fields_of_kindOf hkind
  exact Nat.lt_of_le_of_lt (weight_guard h) (Value.fieldWeight_lt fields "condition")

theorem weight_of_definitions (h : definitions node = .ok nodes) :
    Value.weightItems nodes < node.weight := by
  obtain ⟨fields, rfl⟩ := exists_fields_of_kindOf hkind
  exact weight_definitions h

end Held

mutual

/-- Visits a node and everything below it. A file or a contract is visited by its definitions, a
function or a loop is added and visited by its body, and a branch is added and visited by its guard
and the bodies of its arms, of which the first nodes stand for the arms. A block hands its own link
on to its first node. -/
def preorder (lines : LineTable) (t : RangeTable) (link : Option BranchArm) (node : Value) :
    Except Fault RangeTable := do
  let ⟨kind, _hkind⟩ ← attach (kindOf node)
  match kind with
  | .container =>
    let ⟨nodes, _hnodes⟩ ← attach (definitions node)
    preorderAll lines t none nodes
  | .function =>
    let t ← addFunction lines t node
    let ⟨body, _hbody⟩ ← attach (bodyStatements node "body")
    preorderAll lines t none body
  | .branch =>
    let t ← addBranch lines t node
    let id ← identOf node
    let ⟨condition, _hcondition⟩ ← attach (guard node)
    let ⟨trueArm, _htrue⟩ ← attach (bodyStatements node "trueBody")
    let ⟨falseArm, _hfalse⟩ ← attach (bodyStatements node "falseBody")
    let t ← preorderAll lines t none condition
    let t ← preorderAll lines t (some ⟨id, 0⟩) trueArm
    preorderAll lines t (some ⟨id, 1⟩) falseArm
  | .loop =>
    let t ← addStatement lines t link node
    let ⟨body, _hbody⟩ ← attach (bodyStatements node "body")
    preorderAll lines t none body
  | .block =>
    let ⟨items, _hitems⟩ ← attach (blockItems node)
    preorderAll lines t link items
  | .statement => addStatement lines t link node
  | .other => return t
termination_by 2 * node.weight
decreasing_by
  · have := weight_of_definitions _hkind _hnodes
    omega
  · have := weight_of_body _hkind _hbody
    omega
  · have := weight_of_guard _hkind _hcondition
    omega
  · have := weight_of_body _hkind _htrue
    omega
  · have := weight_of_body _hkind _hfalse
    omega
  · have := weight_of_body _hkind _hbody
    omega
  · have := weightItems_of_blockItems _hitems
    omega

/-- Visits nodes one after the other. Only the first of them may stand for an arm. -/
def preorderAll (lines : LineTable) (t : RangeTable) (link : Option BranchArm)
    (nodes : List Value) : Except Fault RangeTable :=
  match nodes with
  | [] => .ok t
  | first :: rest => do
    let t ← preorder lines t link first
    preorderAll lines t none rest
termination_by 2 * Value.weightItems nodes + 1
decreasing_by
  · rw [Value.weightItems]
    omega
  · have := Value.weight_pos first
    rw [Value.weightItems]
    omega

end

section Recursion
variable (lines : LineTable) (t : RangeTable) (link : Option BranchArm) (node : Value)

theorem preorder_eq :
    preorder lines t link node = do
      match ← kindOf node with
      | .container =>
        let nodes ← definitions node
        preorderAll lines t none nodes
      | .function =>
        let t ← addFunction lines t node
        let body ← bodyStatements node "body"
        preorderAll lines t none body
      | .branch =>
        let t ← addBranch lines t node
        let id ← identOf node
        let condition ← guard node
        let trueArm ← bodyStatements node "trueBody"
        let falseArm ← bodyStatements node "falseBody"
        let t ← preorderAll lines t none condition
        let t ← preorderAll lines t (some ⟨id, 0⟩) trueArm
        preorderAll lines t (some ⟨id, 1⟩) falseArm
      | .loop =>
        let t ← addStatement lines t link node
        let body ← bodyStatements node "body"
        preorderAll lines t none body
      | .block =>
        let items ← blockItems node
        preorderAll lines t link items
      | .statement => addStatement lines t link node
      | .other => return t := by
  rw [preorder]
  refine attach_bind fun kind _ => ?_
  cases kind with
  | container => exact lift_attach_bind fun _ _ => rfl
  | function => exact bind_congr fun _ => attach_bind fun _ _ => rfl
  | branch =>
    refine bind_congr fun _ => bind_congr fun _ => lift_attach_bind fun _ _ => ?_
    exact attach_bind fun _ _ => attach_bind fun _ _ => rfl
  | loop => exact bind_congr fun _ => attach_bind fun _ _ => rfl
  | block => exact lift_attach_bind fun _ _ => rfl
  | statement => rfl
  | other => rfl

theorem preorderAll_nil : preorderAll lines t link [] = .ok t := by
  rw [preorderAll]

theorem preorderAll_cons (rest : List Value) :
    preorderAll lines t link (node :: rest) =
      preorder lines t link node >>= fun t => preorderAll lines t none rest := by
  rw [preorderAll]

/-! ### The walk -/

theorem standing_none (nodes : List Value) : standing none nodes = plain nodes := by
  cases nodes <;> rfl

theorem walk_nil : walk lines t [] = pure t := by
  rw [walk]
  rfl

/-- Pending nodes are visited one group after the other. -/
theorem walk_append (first second : List Pending) :
    walk lines t (first ++ second) =
      walk lines t first >>= fun t => walk lines t second := by
  induction hw : weight first using Nat.strongRecOn generalizing t first with
  | ind n ih =>
    cases first with
    | nil => rw [walk_nil, pure_bind, List.nil_append]
    | cons p rest =>
      obtain ⟨node, link⟩ := p
      rw [List.cons_append, walk_step, walk_step, bind_assoc]
      refine bind_congr fun own => ?_
      rw [bind_assoc]
      refine bind_congr_of_ok fun next hnext => ?_
      rw [← List.append_assoc]
      exact ih _ (hw ▸ weight_next hnext rest) own _ rfl

/-- What the walk does with a single node. -/
theorem walk_node :
    walk lines t [(node, link)] = do
      match ← kindOf node with
      | .container =>
        let nodes ← definitions node
        walk lines t (standing none nodes)
      | .function =>
        let t ← addFunction lines t node
        let body ← bodyStatements node "body"
        walk lines t (standing none body)
      | .branch =>
        let t ← addBranch lines t node
        let id ← identOf node
        let condition ← guard node
        let trueArm ← bodyStatements node "trueBody"
        let falseArm ← bodyStatements node "falseBody"
        let t ← walk lines t (standing none condition)
        let t ← walk lines t (standing (some ⟨id, 0⟩) trueArm)
        walk lines t (standing (some ⟨id, 1⟩) falseArm)
      | .loop =>
        let t ← addStatement lines t link node
        let body ← bodyStatements node "body"
        walk lines t (standing none body)
      | .block =>
        let items ← blockItems node
        walk lines t (standing link items)
      | .statement => addStatement lines t link node
      | .other => return t := by
  rw [walk_step, register, children]
  cases kindOf node with
  | error fault => rfl
  | ok kind =>
    simp only [ok_bind, List.append_nil, standing_none]
    cases kind with
    | container | function | loop | block => simp only [bind_assoc, pure_bind]
    | branch => simp only [bind_assoc, pure_bind, walk_append]
    | statement => simp only [pure_bind, walk_nil, bind_pure]
    | other => simp only [pure_bind, walk_nil]

/-- The recursion goes the way of the walk. -/
theorem preorder_eq_walk : preorder lines t link node = walk lines t [(node, link)] := by
  induction hw : node.weight using Nat.strongRecOn generalizing t link node with
  | ind n ih =>
    have hall : ∀ nodes, Value.weightItems nodes < node.weight → ∀ t link,
        preorderAll lines t link nodes = walk lines t (standing link nodes) := by
      intro nodes hless
      induction nodes with
      | nil =>
        intro t link
        rw [preorderAll_nil]
        exact (walk_nil lines t).symm
      | cons first rest ihrest =>
        rw [Value.weightItems] at hless
        intro t link
        have hfirst : ∀ t link, preorder lines t link first = walk lines t [(first, link)] :=
          fun t link => ih first.weight (by omega) t link first rfl
        have hrest : ∀ t, preorderAll lines t none rest = walk lines t (plain rest) := by
          intro t
          rw [ihrest (by omega), standing_none]
        rw [preorderAll_cons, hfirst]
        simp only [hrest]
        exact (walk_append lines t [(first, link)] (plain rest)).symm
    rw [preorder_eq, walk_node]
    refine bind_congr_of_ok fun kind hkind => ?_
    cases kind with
    | container =>
      exact bind_congr_of_ok fun nodes h =>
        hall nodes (weight_of_definitions hkind (eq_ok_of_lift h)) t none
    | function | loop =>
      exact bind_congr fun t => bind_congr_of_ok fun body h =>
        hall body (weight_of_body hkind h) t none
    | branch =>
      refine bind_congr fun t => bind_congr fun id => bind_congr_of_ok fun condition hc =>
        bind_congr_of_ok fun trueArm ht => bind_congr_of_ok fun falseArm hf => ?_
      simp only [hall condition (weight_of_guard hkind (eq_ok_of_lift hc)),
        hall trueArm (weight_of_body hkind ht), hall falseArm (weight_of_body hkind hf)]
    | block =>
      exact bind_congr_of_ok fun items h =>
        hall items (weightItems_of_blockItems (eq_ok_of_lift h)) t link
    | statement => rfl
    | other => rfl

end Recursion

/-! ### The loop -/

/-- One turn of the loop: the node on top is registered, and the nodes that come next take its
place, the first of them on top. The top of the stack is at its end. -/
def turn (lines : LineTable) (t : RangeTable) (stack : List Pending) (top : Pending) :
    Except Fault (RangeTable × List Pending) := do
  let t ← register lines t top.2 top.1
  let next ← children top.1 top.2
  return (t, stack ++ next.reverse)

/-- The answer of the loop, when it comes to its end within some turns. -/
def loop (lines : LineTable) : Nat → RangeTable → List Pending → Option (Except Fault RangeTable)
  | 0, t, stack => if stack.isEmpty then some (.ok t) else none
  | turns + 1, t, stack =>
    match stack.getLast? with
    | none => some (.ok t)
    | some top =>
      match turn lines t stack.dropLast top with
      | .error fault => some (.error fault)
      | .ok (t, stack) => loop lines turns t stack

theorem weight_singleton (node : Value) (link : Option BranchArm) :
    weight [(node, link)] = node.weight := Nat.add_zero _

theorem weight_reverse (stack : List Pending) : weight stack.reverse = weight stack := by
  induction stack with
  | nil => rfl
  | cons p stack ih =>
    have hp : weight (p :: stack) = weight [p] + weight stack := weight_append [p] stack
    rw [List.reverse_cons, weight_append, ih, hp, Nat.add_comm]

/-- The loop walks through its stack from the top, and comes to its end. -/
theorem loop_eq_walk (lines : LineTable) {turns : Nat} {stack : List Pending}
    (h : weight stack ≤ turns) (t : RangeTable) :
    loop lines turns t stack = some (walk lines t stack.reverse) := by
  induction turns generalizing t stack with
  | zero =>
    cases stack with
    | nil =>
      rw [List.reverse_nil, walk_nil]
      rfl
    | cons p stack =>
      have hp : weight (p :: stack) = p.1.weight + weight stack := rfl
      have := Value.weight_pos p.1
      omega
  | succ turns ih =>
    rcases List.eq_nil_or_concat stack with rfl | ⟨stack, ⟨node, link⟩, rfl⟩
    · rw [List.reverse_nil, walk_nil]
      rfl
    · rw [List.concat_eq_append] at h ⊢
      rw [List.reverse_concat, walk_step, loop, List.getLast?_concat, List.dropLast_concat]
      simp only [turn]
      cases register lines t link node with
      | error fault => rfl
      | ok own =>
        simp only [ok_bind]
        cases hnext : children node link with
        | error fault => rfl
        | ok next =>
          have hless := weight_children hnext
          have hlight : weight (stack ++ next.reverse) ≤ turns := by
            rw [weight_append, weight_singleton] at h
            rw [weight_append, weight_reverse]
            omega
          have hrest := ih hlight own
          rw [List.reverse_append, List.reverse_reverse] at hrest
          exact hrest

/-- **The loop is the recursion.** Indexing a tree in a loop comes to its end, within as many turns
as the tree weighs, and gives the table that the recursion gives, or fails with the same fault. -/
theorem index_eq_preorder (lines : LineTable) (tree : Value) :
    (∀ spare, loop lines (tree.weight + spare) .empty [(tree, none)] =
      some (preorder lines .empty none tree)) ∧
    index lines tree = preorder lines .empty none tree := by
  rw [preorder_eq_walk]
  refine ⟨fun spare => loop_eq_walk lines ?_ .empty, rfl⟩
  rw [weight_singleton]
  exact Nat.le_add_right _ spare

end ContractCoverage.Tree
