import ContractCoverage.Data.Value

/-! Weights: a bound on how many values can be reached inside a value.

The weight of a value covers everything that going through it yields, at any depth. So a
walk that replaces a node by some of what it holds always comes to its end. The
statements say that the elements of a value weigh no more than the value, and that
fields of different names weigh, together, less than the object they belong to. -/
namespace ContractCoverage.Value

mutual

/-- A bound on the number of values that a value leads to, itself included. -/
def weight : Value → Nat
  | .text s => max 1 s.toList.length
  | .list items => 1 + weightItems items
  | .object fields => 1 + weightFields fields
  | _ => 1

/-- The weights of the items of a list together. -/
def weightItems : List Value → Nat
  | [] => 0
  | v :: vs => weight v + weightItems vs

/-- The weights of names and values of fields together. -/
def weightFields : List (String × Value) → Nat
  | [] => 0
  | (name, v) :: rest => max 1 name.toList.length + weight v + weightFields rest

end

theorem weight_pos (v : Value) : 1 ≤ weight v := by
  cases v <;> simp only [weight] <;> omega

theorem weightItems_append (xs ys : List Value) :
    weightItems (xs ++ ys) = weightItems xs + weightItems ys := by
  induction xs with
  | nil => simp [weightItems]
  | cons x xs ih => simp only [List.cons_append, weightItems, ih]; omega

/-! ### Elements -/

theorem weightItems_characters (cs : List Char) :
    weightItems (cs.map fun c => .text (String.singleton c)) = cs.length := by
  induction cs with
  | nil => rfl
  | cons c cs ih =>
    simp only [List.map_cons, weightItems, ih, weight, List.length_cons]
    simp only [String.toList_singleton, List.length_singleton]
    omega

theorem weightItems_names (fields : List (String × Value)) :
    weightItems (fields.map fun e => .text e.1) ≤ weightFields fields := by
  induction fields with
  | nil => exact Nat.le_refl _
  | cons e fields ih =>
    obtain ⟨name, v⟩ := e
    simp only [List.map_cons, weightItems, weightFields, weight] at *
    omega

theorem weightItems_of_elements {v : Value} {xs : List Value} (h : v.elements = .ok xs) :
    weightItems xs ≤ weight v := by
  cases v <;> simp only [elements] at h
  case text s =>
    cases h
    rw [weightItems_characters, weight]
    omega
  case list items =>
    cases h
    simp only [weight]
    omega
  case object fields =>
    cases h
    have := weightItems_names fields
    simp only [weight]
    omega
  all_goals cases h

/-! ### Fields -/

/-- The weight of a field, nothing when it is missing. -/
def fieldWeight (fields : List (String × Value)) (name : String) : Nat :=
  ((fields.lookup name).map weight).getD 0

/-- The weights of the fields of some names together. -/
def fieldWeights (fields : List (String × Value)) : List String → Nat
  | [] => 0
  | name :: names => fieldWeight fields name + fieldWeights fields names

theorem fieldWeight_cons_self (name : String) (v : Value) (rest : List (String × Value)) :
    fieldWeight ((name, v) :: rest) name = weight v := by
  rw [fieldWeight, List.lookup_cons_self]
  rfl

theorem fieldWeight_cons_of_ne {name other : String} (h : other ≠ name) (v : Value)
    (rest : List (String × Value)) :
    fieldWeight ((name, v) :: rest) other = fieldWeight rest other := by
  have hb : (other == name) = false := by simpa using h
  rw [fieldWeight, List.lookup_cons, hb]
  rfl

theorem fieldWeights_nil (names : List String) : fieldWeights [] names = 0 := by
  induction names with
  | nil => rfl
  | cons name names ih =>
    rw [fieldWeights, ih]
    rfl

theorem fieldWeights_append (fields : List (String × Value)) (xs ys : List String) :
    fieldWeights fields (xs ++ ys) = fieldWeights fields xs + fieldWeights fields ys := by
  induction xs with
  | nil => simp [fieldWeights]
  | cons x xs ih => simp only [List.cons_append, fieldWeights, ih]; omega

theorem fieldWeights_cons_of_not_mem {name : String} (v : Value) (rest : List (String × Value))
    {names : List String} (h : name ∉ names) :
    fieldWeights ((name, v) :: rest) names = fieldWeights rest names := by
  induction names with
  | nil => rfl
  | cons other names ih =>
    obtain ⟨hne, hm⟩ := List.ne_and_not_mem_of_not_mem_cons h
    rw [fieldWeights, fieldWeights, fieldWeight_cons_of_ne (Ne.symm hne), ih hm]

/-- Fields of different names weigh, together, no more than all fields. -/
theorem fieldWeights_le (fields : List (String × Value)) {names : List String}
    (hn : names.Nodup) : fieldWeights fields names ≤ weightFields fields := by
  induction fields generalizing names with
  | nil =>
    rw [fieldWeights_nil]
    exact Nat.zero_le _
  | cons e rest ih =>
    obtain ⟨name, v⟩ := e
    rw [weightFields]
    by_cases hm : name ∈ names
    · obtain ⟨before, after, rfl⟩ := List.append_of_mem hm
      obtain ⟨hb, hc, hd⟩ := List.nodup_append.1 hn
      obtain ⟨ha, hr⟩ := List.nodup_cons.1 hc
      have hnot : name ∉ before := fun h => hd _ h _ (List.mem_cons_self ..) rfl
      have hi := ih (List.nodup_append.2 ⟨hb, hr, fun a h b h' =>
        hd a h b (List.mem_cons_of_mem _ h')⟩)
      rw [fieldWeights_append] at hi ⊢
      rw [fieldWeights, fieldWeight_cons_self, fieldWeights_cons_of_not_mem v rest hnot,
        fieldWeights_cons_of_not_mem v rest ha]
      omega
    · rw [fieldWeights_cons_of_not_mem v rest hm]
      have := ih hn
      omega

theorem fieldWeight_lt (fields : List (String × Value)) (name : String) :
    fieldWeight fields name < weight (.object fields) := by
  have h : fieldWeights fields [name] ≤ weightFields fields := fieldWeights_le fields (by simp)
  simp only [fieldWeights, weight] at *
  omega

end ContractCoverage.Value
