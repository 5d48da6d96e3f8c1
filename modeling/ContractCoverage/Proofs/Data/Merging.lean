import ContractCoverage.Proofs.Data.Repeated
import Mathlib.Data.List.Perm.Subperm

/-! Laws of merging and of comparing keyed lists.

Merging puts the keys that are new behind those that are there (`keys_mergeWith`), and
joins values key by key. So it is associative when joining is, with the same order and
the same form of the keys (`mergeWith_assoc`). Comparing two lists entry by entry and by
their sizes tells whether every key has the same value in both, or none in both
(`same_iff`). -/
namespace ContractCoverage.KeyedList
variable {κ ν : Type} [BEq κ]

theorem length_keys (m : KeyedList κ ν) : m.keys.length = m.size := List.length_map _

variable [EquivBEq κ]

/-! ### Keys and values of a merged list -/

/-- Merging keeps the keys and adds those that are new, in their order. -/
theorem keys_mergeWith (combine : Option ν → ν → ν) (m n : KeyedList κ ν) :
    (m.mergeWith combine n).keys = m.keys ++ n.keys.filter fun k => !m.contains k := by
  obtain ⟨es, hdistinct⟩ := n
  show (es.foldl (fun m (e : κ × ν) => m.update e.1 (combine · e.2)) m).keys =
    m.keys ++ (es.map Prod.fst).filter fun k => !m.contains k
  induction es generalizing m with
  | nil => exact (List.append_nil _).symm
  | cons e es ih =>
    obtain ⟨hother, hrest⟩ := List.pairwise_cons.1 hdistinct
    -- The key of the first entry is none of the others, so it does not matter for them.
    have hfilter : (es.map Prod.fst).filter (fun k => !(m.update e.1 (combine · e.2)).contains k) =
        (es.map Prod.fst).filter fun k => !m.contains k := by
      refine List.filter_congr fun k hk => ?_
      obtain ⟨e', he', rfl⟩ := List.mem_map.1 hk
      rw [contains_update, hother e' he', Bool.false_or]
    rw [List.foldl_cons, ih _ hrest, hfilter, keys_update, List.map_cons]
    cases hcontains : m.contains e.1 with
    | true => rw [if_pos rfl, List.filter_cons_of_neg (by simp [hcontains])]
    | false =>
      rw [if_neg (by simp), List.filter_cons_of_pos (by simp [hcontains]), List.append_assoc,
        List.singleton_append]

section Join
variable {combine : Option ν → ν → ν} {join : ν → ν → ν} (fresh : ∀ v, combine none v = v)
  (known : ∀ u v, combine (some u) v = join u v)
include fresh known

theorem contains_mergeWith (m n : KeyedList κ ν) (k : κ) :
    (m.mergeWith combine n).contains k = (m.contains k || n.contains k) := by
  unfold contains
  rw [get?_mergeWith fresh known]
  cases m.get? k <;> cases n.get? k <;> rfl

/-- Merging is associative when joining values is. -/
theorem mergeWith_assoc (assoc : ∀ u v w, join (join u v) w = join u (join v w))
    (m n p : KeyedList κ ν) :
    (m.mergeWith combine n).mergeWith combine p = m.mergeWith combine (n.mergeWith combine p) := by
  apply ext_get?
  · simp only [keys_mergeWith, contains_mergeWith fresh known, List.filter_append,
      List.filter_filter, Bool.not_or, List.append_assoc]
  · intro k
    simp only [get?_mergeWith fresh known]
    cases m.get? k <;> cases n.get? k <;> cases p.get? k <;> simp [assoc]

end Join

/-! ### Comparing -/

/-- A list that has all the keys of another one is at least as long. -/
theorem size_le_of_contains {m n : KeyedList κ ν}
    (h : ∀ k, m.contains k = true → n.contains k = true) : m.size ≤ n.size := by
  -- Keys are counted by what they are equal to, as equal keys may have different forms.
  let form (k : κ) : κ → Bool := fun k' => k == k'
  have hform : ∀ a b, form a = form b ↔ (a == b) = true := by
    intro a b
    constructor
    · intro heq
      exact (congrFun heq b).trans BEq.rfl
    · intro heq
      exact funext fun k => BEq.congr_left heq
  have hnodup : (m.keys.map form).Nodup := by
    refine List.pairwise_map.2 (((distinct_keys_iff m.entries).1 m.distinct).imp ?_)
    intro a b hne heq
    rw [(hform a b).1 heq] at hne
    cases hne
  have hsubset : m.keys.map form ⊆ n.keys.map form := by
    intro f hf
    obtain ⟨a, ha, rfl⟩ := List.mem_map.1 hf
    have hm : m.contains a = true := by
      rw [contains_eq_any_keys]
      exact List.any_eq_true.2 ⟨a, ha, BEq.rfl⟩
    have hn := h a hm
    rw [contains_eq_any_keys] at hn
    obtain ⟨b, hb, heq⟩ := List.any_eq_true.1 hn
    exact List.mem_map.2 ⟨b, hb, (hform b a).2 heq⟩
  have hle := (List.subperm_of_subset hnodup hsubset).length_le
  rwa [List.length_map, List.length_map, length_keys, length_keys] at hle

/-- A list that is no longer than one whose keys it all has, has no other keys. -/
theorem contains_of_size_le {m n : KeyedList κ ν}
    (h : ∀ k, m.contains k = true → n.contains k = true) (hsize : n.size ≤ m.size) {k : κ}
    (hk : n.contains k = true) : m.contains k = true := by
  by_contra hnew
  obtain ⟨v, -⟩ := Option.isSome_iff_exists.1 hk
  -- With the key put in as well the first list would still be no longer than the second one.
  have hle : (m.insert k v).size ≤ n.size := by
    refine size_le_of_contains fun k' hk' => ?_
    rw [contains_insert, Bool.or_eq_true] at hk'
    rcases hk' with hk' | hk'
    · rwa [← n.contains_congr hk']
    · exact h k' hk'
  rw [← length_keys, keys_insert, if_neg hnew, List.length_append, length_keys] at hle
  exact absurd (Nat.le_trans hle hsize) (Nat.not_succ_le_self _)

/-- A value that is found is that of an entry. -/
theorem exists_mem_of_get? {m : KeyedList κ ν} {k : κ} {v : ν} (h : m.get? k = some v) :
    ∃ e ∈ m.entries, (e.1 == k) = true ∧ e.2 = v := by
  have hmem : v ∈ (m.entries.filter (·.1 == k)).map (·.2) := by
    rw [filter_entries, h]
    exact List.mem_singleton_self v
  obtain ⟨e, he, hv⟩ := List.mem_map.1 hmem
  exact ⟨e, (List.mem_filter.1 he).1, (List.mem_filter.1 he).2, hv⟩

/-- Two lists are the same when every key has the same value in both, or none in both. -/
theorem same_iff [BEq ν] [LawfulBEq ν] {m n : KeyedList κ ν} :
    m.same n = true ↔ ∀ k, m.get? k = n.get? k := by
  unfold same
  rw [Bool.and_eq_true, beq_iff_eq, List.all_eq_true]
  constructor
  · rintro ⟨hsize, hall⟩ k
    have hfound : ∀ k v, m.get? k = some v → n.get? k = some v := by
      intro k v hv
      obtain ⟨e, he, hk, rfl⟩ := exists_mem_of_get? hv
      rw [← n.get?_congr hk]
      exact eq_of_beq (hall e he)
    have hcontains : ∀ k, m.contains k = true → n.contains k = true := by
      intro k hk
      obtain ⟨v, hv⟩ := Option.isSome_iff_exists.1 hk
      rw [contains, hfound k v hv]
      rfl
    cases hm : m.get? k with
    | some v => exact (hfound k v hm).symm
    | none =>
      cases hn : n.get? k with
      | none => rfl
      | some w =>
        have hk : m.contains k = true :=
          contains_of_size_le hcontains (Nat.le_of_eq hsize.symm) (by rw [contains, hn]; rfl)
        rw [contains, hm] at hk
        cases hk
  · intro h
    have hcontains : ∀ k, m.contains k = n.contains k := fun k => congrArg Option.isSome (h k)
    refine ⟨Nat.le_antisymm ?_ ?_, fun e he => ?_⟩
    · exact size_le_of_contains fun k hk => (hcontains k).symm.trans hk
    · exact size_le_of_contains fun k hk => (hcontains k).trans hk
    · rw [beq_iff_eq, ← h]
      exact get?_of_mem he

end ContractCoverage.KeyedList
