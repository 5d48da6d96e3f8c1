import ContractCoverage.Journal
import Mathlib.Data.List.Forall2

/-! Chains of steps that may fail.

A chain succeeds when every step of it does, each with what the steps before have
given. Taking a chain apart in this way, step by step, tells what a long computation
that succeeded has gone through. -/
namespace ContractCoverage

theorem ok_bind {ε α β : Type} (a : α) (f : α → Except ε β) :
    ((.ok a : Except ε α) >>= f) = f a := rfl

theorem map_ok {ε α β : Type} (a : α) (f : α → β) :
    (.ok a : Except ε α).map f = .ok (f a) := rfl

/-- What is made of the answer of two steps is made of the answer of the second. -/
theorem map_bind {ε α β γ : Type} (x : Except ε α) (f : α → Except ε β) (g : β → γ) :
    (x >>= f).map g = x >>= fun a => (f a).map g := by
  cases x <;> rfl

/-- What is made of an answer may be made by the next step. -/
theorem bind_map {ε α β γ : Type} (x : Except ε α) (g : α → β) (f : β → Except ε γ) :
    x.map g >>= f = x >>= fun a => f (g a) := by
  cases x <;> rfl

/-- Two steps succeed when the first does and the second does with its answer. -/
theorem bind_eq_ok_iff {ε α β : Type} {x : Except ε α} {f : α → Except ε β} {b : β} :
    (x >>= f) = .ok b ↔ ∃ a, x = .ok a ∧ f a = .ok b := by
  cases x with
  | error e =>
    constructor
    · intro h
      cases h
    · rintro ⟨_, h, -⟩
      cases h
  | ok a =>
    constructor
    · intro h
      exact ⟨a, rfl, h⟩
    · rintro ⟨_, ⟨⟩, hf⟩
      exact hf

/-- What is made of an answer is there when the answer is. -/
theorem map_eq_ok_iff {ε α β : Type} {x : Except ε α} {f : α → β} {b : β} :
    x.map f = .ok b ↔ ∃ a, x = .ok a ∧ f a = b := by
  cases x with
  | error e =>
    constructor
    · intro h
      cases h
    · rintro ⟨_, h, -⟩
      cases h
  | ok a =>
    constructor
    · intro h
      cases h
      exact ⟨a, rfl, rfl⟩
    · rintro ⟨_, ⟨⟩, rfl⟩
      rfl

/-- What follows a step matters only for the answer of the step. -/
theorem bind_congr_of_ok {ε α β : Type} {x : Except ε α} {f g : α → Except ε β}
    (h : ∀ a, x = .ok a → f a = g a) : x >>= f = x >>= g := by
  cases x with
  | error e => rfl
  | ok a => exact h a rfl

/-- Whether a step succeeds, and why not: its answer is left out. -/
def outcome {ε α : Type} (x : Except ε α) : Except ε Unit := x.map fun _ => ()

theorem outcome_eq_ok_iff {ε α : Type} {x : Except ε α} :
    outcome x = .ok () ↔ ∃ a, x = .ok a := by
  rw [outcome, map_eq_ok_iff]
  exact exists_congr fun a => ⟨fun h => h.1, fun h => ⟨h, rfl⟩⟩

theorem outcome_eq_error_iff {ε α : Type} {x : Except ε α} {e : ε} :
    outcome x = .error e ↔ x = .error e := by
  cases x with
  | error e' =>
    constructor
    · intro h
      cases h
      rfl
    · intro h
      cases h
      rfl
  | ok a => exact ⟨nofun, nofun⟩

/-- Chains come out the same when their first steps do, and what follows does on the answers. -/
theorem outcome_bind_congr {ε α α' β β' : Type} {x : Except ε α} {y : Except ε α'}
    {f : α → Except ε β} {g : α' → Except ε β'} (h : outcome x = outcome y)
    (hnext : ∀ a b, x = .ok a → y = .ok b → outcome (f a) = outcome (g b)) :
    outcome (x >>= f) = outcome (y >>= g) := by
  cases x with
  | error e => cases y with
    | error e' => cases h; rfl
    | ok b => cases h
  | ok a => cases y with
    | error e' => cases h
    | ok b => exact hnext a b rfl rfl

/-- Faults may be renamed without changing what succeeds. -/
theorem mapError_eq_ok_iff {ε δ α : Type} {x : Except ε α} {f : ε → δ} {a : α} :
    x.mapError f = .ok a ↔ x = .ok a := by
  cases x with
  | error e =>
    constructor
    · intro h
      cases h
    · intro h
      cases h
  | ok b =>
    constructor
    · intro h
      cases h
      rfl
    · intro h
      cases h
      rfl

/-- What is made of two answers that may be missing is the same when they are related so. -/
theorem map_eq_of_rel {α β γ : Type} {r : α → β → Prop} {f : α → γ} {g : β → γ} {x : Option α}
    {y : Option β} (h : Option.Rel r x y) (hr : ∀ a b, r a b → f a = g b) : x.map f = y.map g := by
  cases h with
  | some hab => exact congrArg some (hr _ _ hab)
  | none => rfl

/-- A step taken for every item succeeds when it does for each of them. -/
theorem mapM_eq_ok_iff {ε α β : Type} {f : α → Except ε β} {xs : List α} {ys : List β} :
    xs.mapM f = .ok ys ↔ List.Forall₂ (fun x y => f x = .ok y) xs ys := by
  induction xs generalizing ys with
  | nil =>
    rw [List.mapM_nil, List.forall₂_nil_left_iff]
    exact ⟨fun h => by cases h; rfl, fun h => by rw [h]; rfl⟩
  | cons x xs ih =>
    simp only [List.mapM_cons, bind_eq_ok_iff, ih, List.forall₂_cons_left_iff]
    constructor
    · rintro ⟨y, hy, zs, hzs, h⟩
      cases h
      exact ⟨y, zs, hy, hzs, rfl⟩
    · rintro ⟨y, zs, hy, hzs, rfl⟩
      exact ⟨y, hy, zs, hzs, rfl⟩

/-- What stands in a list has a partner in a list that is related item by item. -/
theorem exists_of_forall₂ {α β : Type} {r : α → β → Prop} {xs : List α} {ys : List β}
    (h : List.Forall₂ r xs ys) {x : α} (hx : x ∈ xs) : ∃ y ∈ ys, r x y := by
  induction h with
  | nil => exact absurd hx List.not_mem_nil
  | @cons x' y' xs ys hxy _ ih =>
    rcases List.mem_cons.1 hx with rfl | hx
    · exact ⟨y', List.mem_cons_self .., hxy⟩
    · obtain ⟨y, hy, hr⟩ := ih hx
      exact ⟨y, List.mem_cons_of_mem _ hy, hr⟩

/-- Lists that are related item by item through a third one are related item by item. -/
theorem forall₂_through {α β γ : Type} {r : α → β → Prop} {q : β → γ → Prop} {t : α → γ → Prop}
    {xs : List α} {ys : List β} {zs : List γ} (h : List.Forall₂ r xs ys)
    (h' : List.Forall₂ q ys zs) (ht : ∀ x y z, r x y → q y z → t x z) : List.Forall₂ t xs zs := by
  induction h generalizing zs with
  | nil =>
    cases h'
    exact .nil
  | cons hxy _ ih =>
    cases h' with
    | cons hyz hrest => exact .cons (ht _ _ _ hxy hyz) (ih hrest)

/-- Steps that all succeed have an answer for every item, and no other answers. -/
theorem mem_of_mapM {ε α β : Type} {f : α → Except ε β} {xs : List α} {ys : List β}
    (h : xs.mapM f = .ok ys) :
    (∀ x ∈ xs, ∃ y ∈ ys, f x = .ok y) ∧ ∀ y ∈ ys, ∃ x ∈ xs, f x = .ok y := by
  have hall := mapM_eq_ok_iff.1 h
  have hflip : List.Forall₂ (fun y x => f x = .ok y) ys xs := hall.flip
  exact ⟨fun x hx => exists_of_forall₂ hall hx, fun y hy => exists_of_forall₂ hflip hy⟩

/-- Steps for all items succeed when each of them does. -/
theorem exists_mapM_iff {ε α β : Type} {f : α → Except ε β} {xs : List α} :
    (∃ ys, xs.mapM f = .ok ys) ↔ ∀ x ∈ xs, ∃ y, f x = .ok y := by
  constructor
  · rintro ⟨ys, hys⟩ x hx
    obtain ⟨y, -, hy⟩ := (mem_of_mapM hys).1 x hx
    exact ⟨y, hy⟩
  · intro h
    induction xs with
    | nil => exact ⟨[], rfl⟩
    | cons x xs ih =>
      obtain ⟨⟨y, hy⟩, hrest⟩ := List.forall_mem_cons.1 h
      obtain ⟨ys, hys⟩ := ih hrest
      exact ⟨y :: ys, by rw [List.mapM_cons, hy, ok_bind, hys]; rfl⟩

/-- Steps with known answers, taken for every item, have these answers, provided that each of them
may be taken. -/
theorem mapM_eq_ok_iff_map {ε α β : Type} {f : α → Except ε β} {g : α → β} {P : α → Prop}
    (hf : ∀ x y, f x = .ok y ↔ y = g x ∧ P x) {xs : List α} {ys : List β} :
    xs.mapM f = .ok ys ↔ ys = xs.map g ∧ ∀ x ∈ xs, P x := by
  rw [mapM_eq_ok_iff]
  constructor
  · intro h
    induction h with
    | nil => exact ⟨rfl, nofun⟩
    | cons hxy _ ih =>
      obtain ⟨rfl, hx⟩ := (hf _ _).1 hxy
      obtain ⟨rfl, hxs⟩ := ih
      exact ⟨rfl, List.forall_mem_cons.2 ⟨hx, hxs⟩⟩
  · rintro ⟨rfl, hall⟩
    rw [List.forall₂_map_right_iff, List.forall₂_same]
    exact fun x hx => (hf _ _).2 ⟨rfl, hall x hx⟩

/-- What is made of the answers of a chain may be made of each answer at once. -/
theorem map_mapM {ε α β γ : Type} (f : α → Except ε β) (g : β → γ) (xs : List α) :
    (xs.mapM f).map (List.map g) = xs.mapM fun x => (f x).map g := by
  induction xs with
  | nil => rfl
  | cons x xs ih =>
    rw [List.mapM_cons, List.mapM_cons, ← ih]
    cases f x with
    | error e => rfl
    | ok y => cases xs.mapM f <;> rfl

/-- Chains over lists that give the same item by item give the same. -/
theorem mapM_congr {ε α β γ : Type} {f : α → Except ε γ} {g : β → Except ε γ} {xs : List α}
    {ys : List β} (h : List.Forall₂ (fun x y => f x = g y) xs ys) : xs.mapM f = ys.mapM g := by
  induction h with
  | nil => rfl
  | cons hxy _ ih => rw [List.mapM_cons, List.mapM_cons, hxy, ih]

/-- Checks of all items succeed when each of them does. -/
theorem forM_eq_ok_iff {ε α : Type} {f : α → Except ε Unit} {xs : List α} :
    xs.forM f = .ok () ↔ ∀ x ∈ xs, f x = .ok () := by
  induction xs with
  | nil => exact ⟨fun _ => nofun, fun _ => rfl⟩
  | cons x xs ih =>
    show (f x >>= fun _ => xs.forM f) = _ ↔ _
    rw [bind_eq_ok_iff, List.forall_mem_cons, ← ih]
    exact ⟨fun ⟨_, hx, hxs⟩ => ⟨hx, hxs⟩, fun ⟨hx, hxs⟩ => ⟨(), hx, hxs⟩⟩

/-- Checks of all items fail with the fault of the first item that does not pass. -/
theorem forM_eq_error_iff {ε α : Type} {f : α → Except ε Unit} {xs : List α} {e : ε} :
    xs.forM f = .error e ↔ ∃ before x after, xs = before ++ x :: after ∧
      (∀ y ∈ before, f y = .ok ()) ∧ f x = .error e := by
  induction xs with
  | nil =>
    refine ⟨nofun, ?_⟩
    rintro ⟨before, x, after, h, -⟩
    cases before <;> cases h
  | cons x xs ih =>
    show (f x >>= fun _ => xs.forM f) = _ ↔ _
    cases hx : f x with
    | error e' =>
      constructor
      · intro h
        exact ⟨[], x, xs, rfl, nofun, hx.trans h⟩
      · rintro ⟨before, y, after, h, hbefore, hy⟩
        cases before with
        | nil =>
          obtain ⟨rfl, rfl⟩ := List.cons.inj h
          exact hx.symm.trans hy
        | cons z before =>
          obtain ⟨rfl, rfl⟩ := List.cons.inj h
          rw [hbefore x (List.mem_cons_self ..)] at hx
          cases hx
    | ok _ =>
      rw [ok_bind, ih]
      constructor
      · rintro ⟨before, y, after, rfl, hbefore, hy⟩
        exact ⟨x :: before, y, after, rfl, List.forall_mem_cons.2 ⟨hx, hbefore⟩, hy⟩
      · rintro ⟨before, y, after, h, hbefore, hy⟩
        cases before with
        | nil =>
          obtain ⟨rfl, rfl⟩ := List.cons.inj h
          rw [hx] at hy
          cases hy
        | cons z before =>
          obtain ⟨rfl, rfl⟩ := List.cons.inj h
          exact ⟨before, y, after, rfl, (List.forall_mem_cons.1 hbefore).2, hy⟩

/-- A test that always succeeds keeps what it finds true. -/
theorem filterM_eq_filter {ε α : Type} {test : α → Except ε Bool} {q : α → Bool} {xs : List α}
    (h : ∀ x ∈ xs, test x = .ok (q x)) : xs.filterM test = .ok (xs.filter q) := by
  have hloop : ∀ done : List α, List.filterAuxM test xs done =
      .ok ((xs.filter q).reverse ++ done) := by
    induction xs with
    | nil => exact fun _ => rfl
    | cons x xs ih =>
      intro done
      obtain ⟨hx, hxs⟩ := List.forall_mem_cons.1 h
      rw [List.filterAuxM, hx, ok_bind, ih hxs]
      cases hq : q x <;> simp [hq]
  rw [List.filterM, hloop, ok_bind, List.append_nil, List.reverse_reverse]
  rfl

namespace Logged

/-- The journal does not change the result of a step taken for every item. -/
theorem result_mapM {α β : Type} (f : α → Logged β) (xs : List α) :
    (xs.mapM f).result = xs.mapM fun x => (f x).result := by
  have hloop : ∀ done : List β, (List.mapM.loop f xs done).result =
      List.mapM.loop (fun x => (f x).result) xs done := by
    induction xs with
    | nil => exact fun _ => rfl
    | cons x xs ih =>
      intro done
      show (f x >>= fun y => List.mapM.loop f xs (y :: done)).result =
        (f x).result >>= fun y => List.mapM.loop (fun x => (f x).result) xs (y :: done)
      rw [result_bind]
      simp only [ih]
  exact hloop []

end Logged

end ContractCoverage
