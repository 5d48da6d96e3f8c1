/-! Keyed lists: finite maps that remember the order of insertion.

A keyed list is a list of entries whose keys are pairwise different. Keys are compared
with `==`, which may find different keys equal; a key keeps the form in which it was
first inserted. Everything that changes a keyed list goes through `update`, which
replaces the value of a key in place or, for a new key, adds an entry at the end.
`get?_update` and `keys_update` say what that does to the two views of a keyed list:
the look-up and the list of keys. -/
namespace ContractCoverage

/-- A list of entries with pairwise different keys. -/
structure KeyedList (κ ν : Type) [BEq κ] where
  entries : List (κ × ν)
  distinct : entries.Pairwise fun a b => (a.1 == b.1) = false

namespace KeyedList

/-! ### Entries -/

section Entries
variable {κ ν : Type} [BEq κ]

/-- Gives a key the value that `f` makes of the value it has so far. -/
def updateEntries (k : κ) (f : Option ν → ν) : List (κ × ν) → List (κ × ν)
  | [] => [(k, f none)]
  | (k', v) :: rest =>
    if k' == k then (k', f (some v)) :: rest else (k', v) :: updateEntries k f rest

theorem keys_updateEntries (k : κ) (f : Option ν → ν) (es : List (κ × ν)) :
    (updateEntries k f es).map Prod.fst =
      if (es.map Prod.fst).any (· == k) then es.map Prod.fst else es.map Prod.fst ++ [k] := by
  induction es with
  | nil => rfl
  | cons e es ih =>
    obtain ⟨k', v⟩ := e
    cases h : k' == k with
    | true => simp [updateEntries, h]
    | false =>
      simp only [updateEntries, h, List.map_cons, ih, List.any_cons, Bool.false_or,
        Bool.false_eq_true, if_false]
      split <;> rfl

theorem distinct_keys_iff (es : List (κ × ν)) :
    (es.Pairwise fun a b => (a.1 == b.1) = false) ↔
      (es.map Prod.fst).Pairwise fun a b => (a == b) = false := by
  rw [List.pairwise_map]

theorem distinct_updateEntries (k : κ) (f : Option ν → ν) (es : List (κ × ν))
    (h : es.Pairwise fun a b => (a.1 == b.1) = false) :
    (updateEntries k f es).Pairwise fun a b => (a.1 == b.1) = false := by
  rw [distinct_keys_iff] at h ⊢
  rw [keys_updateEntries]
  split
  · exact h
  · next hk =>
    refine List.pairwise_append.2 ⟨h, List.pairwise_singleton .., fun a ha b hb => ?_⟩
    rw [List.mem_singleton.1 hb]
    simp only [List.any_eq_true, not_exists, not_and, Bool.not_eq_true] at hk
    exact hk a ha

/-- The value of a key among entries. -/
def findEntry (k : κ) : List (κ × ν) → Option ν
  | [] => none
  | (k', v) :: rest => if k' == k then some v else findEntry k rest

theorem isSome_findEntry (k : κ) (es : List (κ × ν)) :
    (findEntry k es).isSome = (es.map Prod.fst).any (· == k) := by
  induction es with
  | nil => rfl
  | cons e es ih =>
    obtain ⟨a, v⟩ := e
    cases h : a == k <;> simp_all [findEntry]

variable [EquivBEq κ]

theorem findEntry_congr {k k' : κ} (h : (k == k') = true) (es : List (κ × ν)) :
    findEntry k es = findEntry k' es := by
  induction es with
  | nil => rfl
  | cons e es ih =>
    obtain ⟨a, v⟩ := e
    simp only [findEntry, BEq.congr_right (a := a) h, ih]

theorem findEntry_updateEntries (k k' : κ) (f : Option ν → ν) (es : List (κ × ν)) :
    findEntry k' (updateEntries k f es) =
      if k == k' then some (f (findEntry k es)) else findEntry k' es := by
  induction es with
  | nil => rfl
  | cons e es ih =>
    obtain ⟨a, v⟩ := e
    cases ha : a == k with
    | true =>
      have hk : (a == k') = (k == k') := BEq.congr_left ha
      cases h : k == k' <;> simp [updateEntries, findEntry, ha, hk, h]
    | false =>
      cases h : a == k' with
      | true =>
        have hk : (k == k') = false := by
          rw [← BEq.congr_right (a := k) h, BEq.comm, ha]
        simp [updateEntries, findEntry, ha, h, hk]
      | false => simp [updateEntries, findEntry, ha, h, ih]

end Entries

/-! ### Operations -/

variable {κ ν : Type} [BEq κ]

/-- The keyed list without entries. -/
def empty : KeyedList κ ν := ⟨[], List.Pairwise.nil⟩

instance : Inhabited (KeyedList κ ν) := ⟨empty⟩

/-- The keys in order of insertion. -/
def keys (m : KeyedList κ ν) : List κ := m.entries.map Prod.fst

/-- The values in the order of their keys. -/
def values (m : KeyedList κ ν) : List ν := m.entries.map Prod.snd

/-- The number of entries. -/
def size (m : KeyedList κ ν) : Nat := m.entries.length

/-- The list with `f` applied to every value. -/
def map {μ : Type} (f : ν → μ) (m : KeyedList κ ν) : KeyedList κ μ where
  entries := m.entries.map fun (k, v) => (k, f v)
  distinct := List.pairwise_map.2 m.distinct

/-- The value of a key. -/
def get? (m : KeyedList κ ν) (k : κ) : Option ν := findEntry k m.entries

/-- Whether a key has a value. -/
def contains (m : KeyedList κ ν) (k : κ) : Bool := (m.get? k).isSome

/-- Gives a key the value that `f` makes of its value so far, a new key at the end. -/
def update (m : KeyedList κ ν) (k : κ) (f : Option ν → ν) : KeyedList κ ν :=
  ⟨updateEntries k f m.entries, distinct_updateEntries k f _ m.distinct⟩

/-- Gives a key a value. -/
def insert (m : KeyedList κ ν) (k : κ) (v : ν) : KeyedList κ ν :=
  m.update k fun _ => v

/-- The entries of a list in order; of several for one key the last value counts. -/
def ofList (es : List (κ × ν)) : KeyedList κ ν :=
  es.foldl (fun m (k, v) => m.insert k v) empty

/-- Adds the entries of `n` to `m`, where `combine` joins a value of `n` to the one in `m`. -/
def mergeWith (combine : Option ν → ν → ν) (m n : KeyedList κ ν) : KeyedList κ ν :=
  n.entries.foldl (fun m (k, v) => m.update k (combine · v)) m

/-- Changes the value of a key that is present. -/
def adjust (m : KeyedList κ ν) (k : κ) (f : ν → ν) : KeyedList κ ν where
  entries := m.entries.map fun (k', v) => (k', if k' == k then f v else v)
  distinct := List.pairwise_map.2 m.distinct

/-- Whether two lists have the same keys and equal values, in any order. -/
def same [BEq ν] (m n : KeyedList κ ν) : Bool :=
  m.size == n.size && m.entries.all fun (k, v) => n.get? k == some v

/-! ### The two views -/

theorem ext_entries {m n : KeyedList κ ν} (h : m.entries = n.entries) : m = n := by
  cases m; cases n; cases h; rfl

@[simp] theorem keys_empty : (empty : KeyedList κ ν).keys = [] := rfl

@[simp] theorem keys_map {μ : Type} (f : ν → μ) (m : KeyedList κ ν) : (m.map f).keys = m.keys := by
  simp [keys, map, Function.comp_def]

@[simp] theorem keys_adjust (m : KeyedList κ ν) (k : κ) (f : ν → ν) :
    (m.adjust k f).keys = m.keys := by
  simp [keys, adjust, Function.comp_def]

@[simp] theorem get?_empty (k : κ) : (empty : KeyedList κ ν).get? k = none := rfl

theorem contains_eq_any_keys (m : KeyedList κ ν) (k : κ) : m.contains k = m.keys.any (· == k) :=
  isSome_findEntry k m.entries

theorem keys_update (m : KeyedList κ ν) (k : κ) (f : Option ν → ν) :
    (m.update k f).keys = if m.contains k then m.keys else m.keys ++ [k] := by
  rw [contains_eq_any_keys]
  exact keys_updateEntries k f m.entries

theorem keys_insert (m : KeyedList κ ν) (k : κ) (v : ν) :
    (m.insert k v).keys = if m.contains k then m.keys else m.keys ++ [k] :=
  keys_update m k _

theorem nodup_keys [LawfulBEq κ] (m : KeyedList κ ν) : m.keys.Nodup :=
  ((distinct_keys_iff m.entries).1 m.distinct).imp fun h => by simpa using h

variable [EquivBEq κ]

/-- Equal keys have the same value. -/
theorem get?_congr (m : KeyedList κ ν) {k k' : κ} (h : (k == k') = true) : m.get? k = m.get? k' :=
  findEntry_congr h m.entries

theorem get?_update (m : KeyedList κ ν) (k k' : κ) (f : Option ν → ν) :
    (m.update k f).get? k' = if k == k' then some (f (m.get? k)) else m.get? k' :=
  findEntry_updateEntries k k' f m.entries

@[simp] theorem get?_update_self (m : KeyedList κ ν) (k : κ) (f : Option ν → ν) :
    (m.update k f).get? k = some (f (m.get? k)) := by
  simp [get?_update]

theorem get?_insert (m : KeyedList κ ν) (k k' : κ) (v : ν) :
    (m.insert k v).get? k' = if k == k' then some v else m.get? k' :=
  get?_update m k k' _

end KeyedList

end ContractCoverage
