import ContractCoverage.Proofs.Data.Lookup
import Mathlib.Data.List.Basic

/-! What comes to a keyed list a second time.

An operation may bring what a keyed list already has: an update that gives a key the
value it has, a merge with entries that leave all values as they are, entries that have
been inserted before. The list is then the same afterwards, with its keys in the same
order. `foldl_insert_twice` needs no condition on the entries; several of them may have
one key. -/
namespace ContractCoverage.KeyedList
variable {κ ν : Type} [BEq κ]

/-- An update that gives a key the value it has changes nothing. -/
theorem update_eq_self {m : KeyedList κ ν} {k : κ} {f : Option ν → ν} {v : ν}
    (h : m.get? k = some v) (hf : f (some v) = v) : m.update k f = m := by
  apply ext_entries
  show updateEntries k f m.entries = m.entries
  replace h : findEntry k m.entries = some v := h
  generalize m.entries = es at h
  induction es with
  | nil => cases h
  | cons e es ih =>
    rw [findEntry] at h
    rw [updateEntries]
    by_cases he : (e.1 == k) = true
    · rw [if_pos he] at h ⊢
      cases h
      rw [hf]
    · rw [if_neg he] at h ⊢
      rw [ih h]

/-- Merging changes nothing when every entry leaves the value of its key as it is. -/
theorem mergeWith_eq_self {combine : Option ν → ν → ν} {m n : KeyedList κ ν}
    (h : ∀ e ∈ n.entries, ∃ v, m.get? e.1 = some v ∧ combine (some v) e.2 = v) :
    m.mergeWith combine n = m := by
  show n.entries.foldl (fun m (e : κ × ν) => m.update e.1 (combine · e.2)) m = m
  generalize n.entries = es at h
  induction es with
  | nil => rfl
  | cons e es ih =>
    obtain ⟨⟨v, hv, hself⟩, hrest⟩ := List.forall_mem_cons.1 h
    rw [List.foldl_cons, update_eq_self hv hself]
    exact ih hrest

/-- Inserting entries whose keys are there adds no keys. -/
theorem keys_foldl_insert {m : KeyedList κ ν} {es : List (κ × ν)}
    (h : ∀ e ∈ es, m.contains e.1 = true) :
    (es.foldl (fun m (e : κ × ν) => m.insert e.1 e.2) m).keys = m.keys := by
  induction es generalizing m with
  | nil => rfl
  | cons a es ih =>
    obtain ⟨ha, hrest⟩ := List.forall_mem_cons.1 h
    have hkeys : (m.insert a.1 a.2).keys = m.keys := by rw [keys_insert, if_pos ha]
    rw [List.foldl_cons, ih, hkeys]
    intro e he
    rw [contains_eq_any_keys, hkeys, ← contains_eq_any_keys]
    exact hrest e he

variable [EquivBEq κ]

/-- Lists with the same keys in the same order and the same values under them are the same. -/
theorem ext_get? {m n : KeyedList κ ν} (hkeys : m.keys = n.keys)
    (hget : ∀ k, m.get? k = n.get? k) : m = n := by
  have hentries : ∀ l : KeyedList κ ν,
      l.entries = l.keys.filterMap fun k => (l.get? k).map (k, ·) := by
    intro l
    have hsome : ∀ e ∈ l.entries, (l.get? e.1).map (e.1, ·) = some e := by
      intro e he
      rw [get?_of_mem he]
      rfl
    rw [keys, List.filterMap_map]
    exact List.filterMap_some.symm.trans (List.filterMap_congr fun e he => (hsome e he).symm)
  apply ext_entries
  rw [hentries m, hentries n, hkeys]
  simp only [hget]

/-- When one of the entries that are inserted has a key, its value afterwards does not depend on the
one before. -/
theorem get?_foldl_insert_congr {m n : KeyedList κ ν} {es : List (κ × ν)} {k : κ}
    (h : m.get? k = n.get? k ∨ ∃ e ∈ es, (e.1 == k) = true) :
    (es.foldl (fun m (e : κ × ν) => m.insert e.1 e.2) m).get? k =
      (es.foldl (fun m (e : κ × ν) => m.insert e.1 e.2) n).get? k := by
  induction es generalizing m n with
  | nil =>
    rcases h with h | ⟨e, he, -⟩
    · exact h
    · cases he
  | cons a es ih =>
    apply ih
    rw [get?_insert, get?_insert]
    by_cases ha : (a.1 == k) = true
    · rw [if_pos ha, if_pos ha]
      exact .inl rfl
    · rw [if_neg ha, if_neg ha]
      rcases h with h | ⟨e, he, hk⟩
      · exact .inl h
      · rcases List.mem_cons.1 he with rfl | he
        · exact absurd hk ha
        · exact .inr ⟨e, he, hk⟩

/-- Entries that have been inserted may be inserted again. -/
theorem foldl_insert_twice (m : KeyedList κ ν) (es : List (κ × ν)) :
    es.foldl (fun m (e : κ × ν) => m.insert e.1 e.2)
        (es.foldl (fun m (e : κ × ν) => m.insert e.1 e.2) m) =
      es.foldl (fun m (e : κ × ν) => m.insert e.1 e.2) m := by
  apply ext_get?
  · apply keys_foldl_insert
    intro e he
    rcases get?_foldl_insert m es e.1 with ⟨found, -, -, hget⟩ | ⟨hnone, -⟩
    · rw [contains, hget]
      rfl
    · have hself := hnone e he
      rw [BEq.rfl] at hself
      cases hself
  · intro k
    rcases get?_foldl_insert m es k with ⟨e, he, hk, -⟩ | ⟨-, hget⟩
    · exact get?_foldl_insert_congr (.inr ⟨e, he, hk⟩)
    · exact get?_foldl_insert_congr (.inl hget)

end ContractCoverage.KeyedList
