import ContractCoverage.Proofs.Coverage.Built
import ContractCoverage.Tree.Index

/-! The walk through a syntax tree, visit by visit.

What visiting a node adds depends on the node and its link alone, not on the table
(`register_asks`), and neither do the nodes that come next. So a walk that succeeds
visits certain nodes in a certain order (`Visits`) and registers what these ask for, one
after the other (`walk_of_visits`). Pending nodes are visited one group after the other
(`Visits.split`), and what one group adds is what it adds by itself. -/
namespace ContractCoverage.Tree
open Node

/-! ### What a visit adds -/

/-- The steps that a node of some kind asks for. Only a loop or a statement uses its link. -/
inductive Asks (link : Option BranchArm) : Kind → List Registration → Prop
  | function (id : Ident) (range : Range) (name : Value) (span : Span) :
    Asks link .function [.function id (.range range) name (some span)]
  | branch (id : Ident) (guard : Option Span) (arms : List (Option Span)) :
    Asks link .branch [.branch id 2 "if" guard arms]
  | loop (id : Ident) (range : Range) (span : Span) :
    Asks link .loop [.statement id (.range range) (some span) link]
  | statement (id : Ident) (range : Range) (span : Span) :
    Asks link .statement [.statement id (.range range) (some span) link]
  | container : Asks link .container []
  | block : Asks link .block []
  | other : Asks link .other []

section
variable {lines : LineTable} {t t' : RangeTable} {link : Option BranchArm} {node : Value}

theorem addStatement_eq (h : addStatement lines t link node = .ok t') :
    ∃ id range span, ∀ u, addStatement lines u link node =
      u.addAll [.statement id (.range range) (some span) link] := by
  simp only [addStatement, bind_eq_ok_iff] at h
  obtain ⟨range, hrange, span, hspan, id, hid, -⟩ := h
  refine ⟨id, range, span, fun u => ?_⟩
  simp only [addStatement, hrange, hspan, hid, ok_bind]

theorem addFunction_eq (h : addFunction lines t node = .ok t') :
    ∃ id range name span, ∀ u, addFunction lines u node =
      u.addAll [.function id (.range range) name (some span)] := by
  simp only [addFunction, bind_eq_ok_iff] at h
  obtain ⟨whole, hwhole, header, hheader, name, hname, span, hspan, id, hid, -⟩ := h
  refine ⟨id, whole, name, span, fun u => ?_⟩
  simp only [addFunction, hwhole, hheader, hname, hspan, hid, ok_bind]

theorem addBranch_eq (h : addBranch lines t node = .ok t') :
    ∃ id guard arms, ∀ u, addBranch lines u node = u.addAll [.branch id 2 "if" guard arms] := by
  simp only [addBranch, bind_eq_ok_iff] at h
  obtain ⟨whole, hwhole, body, hbody, trueRange, htrue, trueSpan, hspan, falseBody, hfalse, h⟩ := h
  cases falseBody with
  | none =>
    simp only [bind_eq_ok_iff] at h
    obtain ⟨falseSpan, hsame, guard, hguard, span, hloc, id, hid, -⟩ := h
    refine ⟨id, some span, [some trueSpan, some falseSpan], fun u => ?_⟩
    simp only [addBranch, hwhole, hbody, htrue, hspan, hfalse, hsame, hguard, hloc, hid, ok_bind]
  | some body =>
    simp only [bind_eq_ok_iff] at h
    obtain ⟨range, hrange, falseSpan, hsecond, guard, hguard, span, hloc, id, hid, -⟩ := h
    refine ⟨id, some span, [some trueSpan, some falseSpan], fun u => ?_⟩
    simp only [addBranch, hwhole, hbody, htrue, hspan, hfalse, hrange, hsecond, hguard, hloc, hid,
      ok_bind]

/-- A node asks for its steps whatever the table is. -/
theorem register_asks (h : register lines t link node = .ok t') :
    ∃ kind steps, kindOf node = .ok kind ∧ Asks link kind steps ∧
      ∀ u, register lines u link node = u.addAll steps := by
  simp only [register, bind_eq_ok_iff] at h
  obtain ⟨kind, hkind, h⟩ := h
  simp only [register, hkind, ok_bind]
  cases kind with
  | function =>
    obtain ⟨id, range, name, span, hsteps⟩ := addFunction_eq h
    exact ⟨_, _, rfl, .function id range name span, hsteps⟩
  | branch =>
    obtain ⟨id, guard, arms, hsteps⟩ := addBranch_eq h
    exact ⟨_, _, rfl, .branch id guard arms, hsteps⟩
  | loop =>
    obtain ⟨id, range, span, hsteps⟩ := addStatement_eq h
    exact ⟨_, _, rfl, .loop id range span, hsteps⟩
  | statement =>
    obtain ⟨id, range, span, hsteps⟩ := addStatement_eq h
    exact ⟨_, _, rfl, .statement id range span, hsteps⟩
  | container => exact ⟨_, _, rfl, .container, fun _ => rfl⟩
  | block => exact ⟨_, _, rfl, .block, fun _ => rfl⟩
  | other => exact ⟨_, _, rfl, .other, fun _ => rfl⟩

end

/-- What visiting a node registers. -/
def entries (lines : LineTable) (p : Pending) : List (RangeKey × Target) :=
  match register lines .empty p.2 p.1 with
  | .ok t => t.registered
  | .error _ => []

theorem entries_eq {lines : LineTable} {link : Option BranchArm} {node : Value}
    {steps : List Registration} (hsteps : ∀ u, register lines u link node = u.addAll steps)
    {t t' : RangeTable} (h : t.addAll steps = .ok t') :
    entries lines (node, link) = steps.flatMap Registration.entries := by
  obtain ⟨own, hown⟩ := (RangeTable.addAll_of_ok h).2 .empty
  simp only [entries, hsteps, hown]
  exact (RangeTable.addAll_of_ok hown).1

/-- A node that can be registered adds its entries to any table. -/
theorem register_of_ok {lines : LineTable} {t t' : RangeTable} {link : Option BranchArm}
    {node : Value} (h : register lines t link node = .ok t') :
    t'.registered = t.registered ++ entries lines (node, link) ∧
      ∀ u, ∃ u', register lines u link node = .ok u' := by
  obtain ⟨kind, steps, -, -, hsteps⟩ := register_asks h
  rw [hsteps t] at h
  obtain ⟨hregistered, hevery⟩ := RangeTable.addAll_of_ok h
  refine ⟨by rw [entries_eq hsteps h, hregistered], fun u => ?_⟩
  rw [hsteps u]
  exact hevery u

/-- The entries of a node by its kind. -/
theorem entries_of_asks {lines : LineTable} {t t' : RangeTable} {link : Option BranchArm}
    {node : Value} (h : register lines t link node = .ok t') :
    ∃ kind steps, kindOf node = .ok kind ∧ Asks link kind steps ∧
      entries lines (node, link) = steps.flatMap Registration.entries := by
  obtain ⟨kind, steps, hkind, hasks, hsteps⟩ := register_asks h
  rw [hsteps t] at h
  exact ⟨kind, steps, hkind, hasks, entries_eq hsteps h⟩

/-! ### Visits -/

theorem weight_next {node : Value} {link : Option BranchArm} {next : List Pending}
    (h : children node link = .ok next) (pending : List Pending) :
    weight (next ++ pending) < weight ((node, link) :: pending) := by
  have hc := weight_children h
  have ha := weight_append next pending
  have hp : weight ((node, link) :: pending) = node.weight + weight pending := rfl
  omega

/-- The nodes that are visited, in the order of the visits. -/
def visited (pending : List Pending) : List Pending :=
  match pending with
  | [] => []
  | (node, link) :: rest =>
    (node, link) ::
      match _h : children node link with
      | .ok next => visited (next ++ rest)
      | .error _ => []
termination_by weight pending
decreasing_by exact weight_next _h rest

theorem visited_cons {node : Value} {link : Option BranchArm} {next : List Pending}
    (h : children node link = .ok next) (rest : List Pending) :
    visited ((node, link) :: rest) = (node, link) :: visited (next ++ rest) := by
  rw [visited]
  split
  · next found hfound =>
    rw [h] at hfound
    cases hfound
    rfl
  · next hfault =>
    rw [h] at hfault
    cases hfault

/-- Visiting pending nodes, one after the other, visits nodes in an order. -/
inductive Visits (lines : LineTable) : List Pending → List Pending → Prop
  | nil : Visits lines [] []
  | cons {node : Value} {link : Option BranchArm} {own : RangeTable}
      {next pending order : List Pending} (hregister : register lines .empty link node = .ok own)
      (hchildren : children node link = .ok next) (hrest : Visits lines (next ++ pending) order) :
      Visits lines ((node, link) :: pending) ((node, link) :: order)

theorem Visits.eq_visited {lines : LineTable} {pending order : List Pending}
    (h : Visits lines pending order) : order = visited pending := by
  induction h with
  | nil => rw [visited]
  | cons _ hchildren _ ih => rw [visited_cons hchildren, ih]

/-- What visiting nodes in an order adds. -/
def additions (lines : LineTable) (order : List Pending) : List (RangeKey × Target) :=
  order.flatMap (entries lines)

/-- Visiting nodes is visiting the first of them, and then what comes after it and the others. -/
theorem walk_step {lines : LineTable} (t : RangeTable) (node : Value) (link : Option BranchArm)
    (rest : List Pending) :
    walk lines t ((node, link) :: rest) =
      register lines t link node >>= fun own =>
        children node link >>= fun next => walk lines own (next ++ rest) := by
  rw [walk]
  cases register lines t link node with
  | error fault => rfl
  | ok own =>
    simp only [ok_bind]
    split
    · next hc =>
      rw [hc]
      rfl
    · next hc =>
      rw [hc]
      rfl

theorem walk_cons {lines : LineTable} {t t' : RangeTable} {node : Value}
    {link : Option BranchArm} {pending : List Pending} :
    walk lines t ((node, link) :: pending) = .ok t' ↔
      ∃ own next, register lines t link node = .ok own ∧ children node link = .ok next ∧
        walk lines own (next ++ pending) = .ok t' := by
  simp only [walk_step, bind_eq_ok_iff, exists_and_left]

/-- A walk that succeeds visits nodes in an order. -/
theorem visits_of_walk {lines : LineTable} {t t' : RangeTable} {pending : List Pending}
    (h : walk lines t pending = .ok t') : ∃ order, Visits lines pending order := by
  induction hw : weight pending using Nat.strongRecOn generalizing t pending with
  | ind n ih =>
    cases pending with
    | nil => exact ⟨[], .nil⟩
    | cons p pending =>
      obtain ⟨node, link⟩ := p
      obtain ⟨own, next, hregister, hchildren, hwalk⟩ := walk_cons.1 h
      have hless : weight (next ++ pending) < n := hw ▸ weight_next hchildren pending
      obtain ⟨order, horder⟩ := ih _ hless hwalk rfl
      obtain ⟨empty, hempty⟩ := (register_of_ok hregister).2 .empty
      exact ⟨_, .cons hempty hchildren horder⟩

/-- Visits succeed with every table and add the same to it. -/
theorem walk_of_visits {lines : LineTable} {pending order : List Pending}
    (h : Visits lines pending order) (t : RangeTable) :
    ∃ t', walk lines t pending = .ok t' ∧
      t'.registered = t.registered ++ additions lines order := by
  induction h generalizing t with
  | nil => exact ⟨t, by rw [walk], (List.append_nil _).symm⟩
  | cons hregister hchildren _ ih =>
    obtain ⟨own, hown⟩ := (register_of_ok hregister).2 t
    obtain ⟨t', hwalk, hrest⟩ := ih own
    refine ⟨t', walk_cons.2 ⟨own, _, hown, hchildren, hwalk⟩, ?_⟩
    rw [hrest, (register_of_ok hown).1, additions, additions, List.flatMap_cons,
      List.append_assoc]

/-- Two groups of pending nodes are visited one after the other. -/
theorem Visits.split {lines : LineTable} {first second order : List Pending}
    (h : Visits lines (first ++ second) order) :
    ∃ before after, order = before ++ after ∧ Visits lines first before ∧
      Visits lines second after := by
  generalize hp : first ++ second = pending at h
  induction h generalizing first with
  | nil =>
    obtain ⟨rfl, rfl⟩ := List.append_eq_nil_iff.1 hp
    exact ⟨[], [], rfl, .nil, .nil⟩
  | @cons node link own next rest order hregister hchildren hrest ih =>
    cases first with
    | nil =>
      obtain rfl : second = (node, link) :: rest := hp
      exact ⟨[], _, rfl, .nil, .cons hregister hchildren hrest⟩
    | cons p first =>
      obtain ⟨rfl, rfl⟩ := List.cons.inj hp
      obtain ⟨before, after, rfl, hbefore, hafter⟩ := ih (List.append_assoc next first second)
      exact ⟨_ :: before, after, rfl, .cons hregister hchildren hbefore, hafter⟩

end ContractCoverage.Tree
