import ContractCoverage.Data.KeyedList

/-! What is found in a keyed list after an operation.

Every operation has one equation for the look-up. Merging is the one that matters:
`get?_mergeWith` says that the value of a key in a merged list is made of the two
values of that key and of nothing else, whatever the order of the entries. -/
namespace ContractCoverage.KeyedList

/-! ### Entries -/

section Entries
variable {κ ν : Type} [BEq κ]

theorem findEntry_eq_none {k : κ} {es : List (κ × ν)} (h : ∀ e ∈ es, (e.1 == k) = false) :
    findEntry k es = none := by
  induction es with
  | nil => rfl
  | cons e es ih =>
    have he := h e (List.mem_cons_self ..)
    simp only [findEntry, he, Bool.false_eq_true, if_false]
    exact ih fun e he => h e (List.mem_cons_of_mem _ he)

theorem findEntry_map {μ : Type} (k : κ) (f : ν → μ) (es : List (κ × ν)) :
    findEntry k (es.map fun e => (e.1, f e.2)) = (findEntry k es).map f := by
  induction es with
  | nil => rfl
  | cons e es ih =>
    cases h : e.1 == k <;> simp [findEntry, h, ih]

variable [EquivBEq κ]

/-- Of items with pairwise different keys no two have equal ones. -/
theorem eq_of_distinct {α : Type} {key : α → κ} {items : List α}
    (h : items.Pairwise fun x y => (key x == key y) = false) {x y : α} (hx : x ∈ items)
    (hy : y ∈ items) (hkey : (key x == key y) = true) : x = y := by
  have hne : items.Pairwise fun x y => (key x == key y) = true → x = y :=
    h.imp fun hfalse htrue => absurd htrue (by simp [hfalse])
  have hflip : items.Pairwise (flip fun x y => (key x == key y) = true → x = y) :=
    h.imp fun hfalse htrue => absurd (BEq.symm htrue) (by simp [hfalse])
  exact hne.forall_of_forall_of_flip (fun _ _ _ => rfl) hflip hx hy hkey

/-- Behind an entry of pairwise different ones its key is found no more. -/
theorem findEntry_tail {a k : κ} {v : ν} {es : List (κ × ν)}
    (h : ((a, v) :: es).Pairwise fun x y => (x.1 == y.1) = false) (hk : (a == k) = true) :
    findEntry k es = none := by
  apply findEntry_eq_none
  intro e he
  have hne : (a == e.1) = false := (List.pairwise_cons.1 h).1 e he
  rw [BEq.comm, ← BEq.congr_left hk]
  exact hne

/-- Among entries with different keys a key has its value, where that is there, also when the others
have been left out. -/
theorem findEntry_filterMap {es : List (κ × Option ν)}
    (h : es.Pairwise fun a b => (a.1 == b.1) = false) (k : κ) :
    findEntry k (es.filterMap fun e => e.2.map (e.1, ·)) = (findEntry k es).join := by
  induction es with
  | nil => rfl
  | cons e es ih =>
    obtain ⟨a, v⟩ := e
    have hrest := ih (List.pairwise_cons.1 h).2
    cases hk : a == k with
    | false =>
      cases v <;> simp [findEntry, hk, hrest]
    | true =>
      cases v with
      | some v => simp [findEntry, hk]
      | none => simp [findEntry, hk, hrest, findEntry_tail h hk]

end Entries

/-! ### Values of all keys -/

section Lookup
variable {κ ν : Type} [BEq κ]

theorem get?_map {μ : Type} (f : ν → μ) (m : KeyedList κ ν) (k : κ) :
    (m.map f).get? k = (m.get? k).map f := findEntry_map k f m.entries

/-- A value may be changed before it is inserted, when all values are to be changed. -/
theorem map_insert {μ : Type} (f : ν → μ) (m : KeyedList κ ν) (k : κ) (v : ν) :
    (m.insert k v).map f = (m.map f).insert k (f v) := by
  apply ext_entries
  show (updateEntries k (fun _ => v) m.entries).map (fun e => (e.1, f e.2)) =
    updateEntries k (fun _ => f v) (m.entries.map fun e => (e.1, f e.2))
  generalize m.entries = es
  induction es with
  | nil => rfl
  | cons e es ih =>
    cases h : e.1 == k with
    | true => simp only [updateEntries, h, if_true, List.map_cons]
    | false => simp only [updateEntries, h, Bool.false_eq_true, if_false, List.map_cons, ih]

/-- An update puts a new entry at the end, or changes the value of the one that has the key. -/
theorem entries_update (m : KeyedList κ ν) (k : κ) (f : Option ν → ν) :
    (m.update k f).entries = m.entries ++ [(k, f none)] ∨
      ∃ before a v after, m.entries = before ++ (a, v) :: after ∧ (a == k) = true ∧
        (m.update k f).entries = before ++ (a, f (some v)) :: after := by
  show updateEntries k f m.entries = m.entries ++ _ ∨ ∃ before a v after,
    m.entries = before ++ (a, v) :: after ∧ (a == k) = true ∧
      updateEntries k f m.entries = before ++ (a, f (some v)) :: after
  induction m.entries with
  | nil => exact .inl rfl
  | cons e es ih =>
    obtain ⟨a, v⟩ := e
    by_cases ha : (a == k) = true
    · exact .inr ⟨[], a, v, es, rfl, ha, if_pos ha⟩
    · rw [updateEntries, if_neg ha]
      rcases ih with ih | ⟨before, b, w, after, hes, hb, ih⟩
      · rw [ih]
        exact .inl rfl
      · exact .inr ⟨(a, v) :: before, b, w, after, congrArg _ hes, hb, congrArg _ ih⟩

/-- What holds of all entries and of what an update puts under its key holds of all entries after
the update. -/
theorem forall_entries_update {P : κ → ν → Prop} {m : KeyedList κ ν} {k : κ} {f : Option ν → ν}
    (h : ∀ e ∈ m.entries, P e.1 e.2) (hself : P k (f none))
    (hsame : ∀ a v, (a == k) = true → P a (f (some v))) :
    ∀ e ∈ (m.update k f).entries, P e.1 e.2 := by
  rcases entries_update m k f with hnew | ⟨before, a, v, after, hm, ha, hold⟩
  · rw [hnew]
    exact List.forall_mem_append.2 ⟨h, List.forall_mem_singleton.2 hself⟩
  · rw [hm] at h
    obtain ⟨hbefore, hrest⟩ := List.forall_mem_append.1 h
    rw [hold]
    exact List.forall_mem_append.2
      ⟨hbefore, List.forall_mem_cons.2 ⟨hsame a v ha, (List.forall_mem_cons.1 hrest).2⟩⟩

/-- Entries whose keys are different from each other and from those that are there come behind them,
when a new key keeps its value. -/
theorem entries_foldl_update {combine : Option ν → ν → ν} (fresh : ∀ v, combine none v = v)
    {es : List (κ × ν)} (m : KeyedList κ ν)
    (h : (m.entries ++ es).Pairwise fun a b => (a.1 == b.1) = false) :
    (es.foldl (fun m (e : κ × ν) => m.update e.1 (combine · e.2)) m).entries = m.entries ++ es := by
  induction es generalizing m with
  | nil => exact (List.append_nil _).symm
  | cons e es ih =>
    have hnew : ∀ a ∈ m.entries, (a.1 == e.1) = false := fun a ha =>
      (List.pairwise_append.1 h).2.2 a ha e (List.mem_cons_self ..)
    have hstep : ∀ l : List (κ × ν), (∀ a ∈ l, (a.1 == e.1) = false) →
        updateEntries e.1 (combine · e.2) l = l ++ [e] := by
      intro l hl
      induction l with
      | nil => rw [updateEntries, fresh, List.nil_append]
      | cons a l ihl =>
        have ha := hl a (List.mem_cons_self ..)
        simp only [updateEntries, ha, Bool.false_eq_true, if_false, List.cons_append,
          ihl fun b hb => hl b (List.mem_cons_of_mem _ hb)]
    have hupdate : (m.update e.1 (combine · e.2)).entries = m.entries ++ [e] := hstep _ hnew
    rw [List.foldl_cons, ih, hupdate, List.append_assoc, List.singleton_append]
    rw [hupdate, List.append_assoc]
    exact h

/-- A list made of entries with different keys has these entries. -/
theorem entries_ofList {es : List (κ × ν)} (h : es.Pairwise fun a b => (a.1 == b.1) = false) :
    (ofList es).entries = es :=
  @entries_foldl_update κ ν _ (fun _ v => v) (fun _ => rfl) es empty h

/-- Merging into nothing, where new keys keep their values, gives the list itself. -/
theorem empty_mergeWith {combine : Option ν → ν → ν} (fresh : ∀ v, combine none v = v)
    (m : KeyedList κ ν) : (empty : KeyedList κ ν).mergeWith combine m = m :=
  ext_entries (entries_foldl_update fresh empty m.distinct)

/-- A key that is present gets its new value in its old place. -/
theorem entries_insert_of_mem [ReflBEq κ] {m : KeyedList κ ν} {before after : List (κ × ν)} {k : κ}
    {v : ν} (h : m.entries = before ++ (k, v) :: after) (v' : ν) :
    (m.insert k v').entries = before ++ (k, v') :: after := by
  have hd := m.distinct
  rw [h, List.pairwise_append] at hd
  have hother : ∀ a ∈ before, (a.1 == k) = false := fun a ha =>
    hd.2.2 a ha (k, v) (List.mem_cons_self ..)
  show updateEntries k (fun _ => v') m.entries = _
  rw [h]
  clear h hd
  induction before with
  | nil => simp [updateEntries]
  | cons a before ih =>
    obtain ⟨ha, hbefore⟩ := List.forall_mem_cons.1 hother
    rw [List.cons_append, updateEntries, if_neg (by simp [ha]), ih hbefore, List.cons_append]

/-- A key with a value is one of the keys. -/
theorem mem_keys_of_get? [LawfulBEq κ] {m : KeyedList κ ν} {k : κ} {v : ν}
    (h : m.get? k = some v) : k ∈ m.keys := by
  have hany : m.keys.any (· == k) = true := by
    rw [← contains_eq_any_keys, contains, h]
    rfl
  obtain ⟨a, ha, hk⟩ := List.any_eq_true.1 hany
  exact eq_of_beq hk ▸ ha

/-- Nothing is changed under a key that is not present. -/
theorem adjust_of_get?_none {m : KeyedList κ ν} {k : κ} (h : m.get? k = none) (f : ν → ν) :
    m.adjust k f = m := by
  have hnone : ∀ e ∈ m.entries, (e.1 == k) = false := by
    have hkeys : m.keys.any (· == k) = false := by
      rw [← contains_eq_any_keys, contains, h]
      rfl
    intro e he
    exact Bool.eq_false_iff.2 (List.any_eq_false.1 hkeys e.1 (List.mem_map_of_mem he))
  apply ext_entries
  show m.entries.map (fun e => (e.1, if e.1 == k then f e.2 else e.2)) = m.entries
  refine (List.map_congr_left fun e he => ?_).trans (List.map_id' _)
  rw [hnone e he]
  rfl

variable [EquivBEq κ]

/-- A value that is present is changed where it stands. -/
theorem adjust_of_get?_some {m : KeyedList κ ν} {k : κ} {v : ν} (h : m.get? k = some v)
    (f : ν → ν) : m.adjust k f = m.insert k (f v) := by
  apply ext_entries
  obtain ⟨es, hd⟩ := m
  show es.map (fun e => (e.1, if e.1 == k then f e.2 else e.2)) =
    updateEntries k (fun _ => f v) es
  change findEntry k es = some v at h
  induction es with
  | nil => cases h
  | cons e es ih =>
    obtain ⟨a, u⟩ := e
    cases ha : a == k with
    | true =>
      have hrest : ∀ e ∈ es, (e.1 == k) = false := fun e he => by
        rw [BEq.comm, ← BEq.congr_left ha]
        exact (List.pairwise_cons.1 hd).1 e he
      have hsame : es.map (fun e => (e.1, if e.1 == k then f e.2 else e.2)) = es := by
        refine (List.map_congr_left fun e he => ?_).trans (List.map_id' _)
        rw [hrest e he]
        rfl
      simp only [findEntry, ha, if_true, Option.some.injEq] at h
      simp only [List.map_cons, ha, if_true, updateEntries, hsame, h]
    | false =>
      simp only [findEntry, ha, Bool.false_eq_true, if_false] at h
      simp only [List.map_cons, ha, Bool.false_eq_true, if_false, updateEntries,
        ih (List.pairwise_cons.1 hd).2 h]

/-- Changing the value of one key leaves the others. -/
theorem get?_adjust (m : KeyedList κ ν) (k k' : κ) (f : ν → ν) :
    (m.adjust k f).get? k' = (m.get? k').map fun v => if k' == k then f v else v := by
  show findEntry k' (m.entries.map fun e => (e.1, if e.1 == k then f e.2 else e.2)) =
    (findEntry k' m.entries).map _
  induction m.entries with
  | nil => rfl
  | cons e es ih =>
    by_cases he : (e.1 == k') = true
    · have hk : (e.1 == k) = (k' == k) := BEq.congr_left he
      simp only [List.map_cons, findEntry, he, hk, if_true, Option.map_some]
    · simp only [List.map_cons, findEntry, if_neg he, ih]

theorem get?_adjust_of_ne {m : KeyedList κ ν} {k k' : κ} (h : (k' == k) = false) (f : ν → ν) :
    (m.adjust k f).get? k' = m.get? k' := by
  simp only [get?_adjust, h, Bool.false_eq_true, if_false, Option.map_id_fun', id_eq]

/-- Looking up a key among entries added one after the other to a list. -/
theorem get?_foldl_update (combine : Option ν → ν → ν) (m : KeyedList κ ν) (k : κ)
    {es : List (κ × ν)} (h : es.Pairwise fun a b => (a.1 == b.1) = false) :
    (es.foldl (fun m (e : κ × ν) => m.update e.1 (combine · e.2)) m).get? k =
      match findEntry k es with
      | none => m.get? k
      | some v => some (combine (m.get? k) v) := by
  induction es generalizing m with
  | nil => rfl
  | cons e es ih =>
    obtain ⟨a, v⟩ := e
    rw [List.foldl_cons, ih _ (List.pairwise_cons.1 h).2, get?_update]
    cases ha : a == k with
    | true =>
      rw [findEntry_tail h ha]
      simp [findEntry, ha, get?_congr m ha]
    | false => simp [findEntry, ha]

/-- The value of a key in a merged list is joined from the values it has in the two lists. -/
theorem get?_mergeWith {combine : Option ν → ν → ν} {join : ν → ν → ν}
    (fresh : ∀ v, combine none v = v) (known : ∀ u v, combine (some u) v = join u v)
    (m n : KeyedList κ ν) (k : κ) :
    (m.mergeWith combine n).get? k = Option.merge join (m.get? k) (n.get? k) := by
  have h := get?_foldl_update combine m k n.distinct
  show (n.entries.foldl (fun m (e : κ × ν) => m.update e.1 (combine · e.2)) m).get? k = _
  rw [h]
  show (match n.get? k with | none => m.get? k | some v => some (combine (m.get? k) v)) = _
  cases n.get? k with
  | none => cases m.get? k <;> rfl
  | some v => cases m.get? k <;> simp [fresh, known]

/-- After entries have been inserted a key has the value of one of them, or, when none has that key,
the value it had before. -/
theorem get?_foldl_insert (m : KeyedList κ ν) (es : List (κ × ν)) (k : κ) :
    (∃ e ∈ es, (e.1 == k) = true ∧
        (es.foldl (fun m (e : κ × ν) => m.insert e.1 e.2) m).get? k = some e.2) ∨
      (∀ e ∈ es, (e.1 == k) = false) ∧
        (es.foldl (fun m (e : κ × ν) => m.insert e.1 e.2) m).get? k = m.get? k := by
  induction es generalizing m with
  | nil => exact .inr ⟨fun e he => absurd he List.not_mem_nil, rfl⟩
  | cons a es ih =>
    rcases ih (m.insert a.1 a.2) with ⟨e, he, hk, hget⟩ | ⟨hnone, hget⟩
    · exact .inl ⟨e, List.mem_cons_of_mem _ he, hk, hget⟩
    · rw [get?_insert] at hget
      cases ha : a.1 == k with
      | true =>
        rw [ha] at hget
        exact .inl ⟨a, List.mem_cons_self .., ha, hget⟩
      | false =>
        rw [ha] at hget
        exact .inr ⟨List.forall_mem_cons.2 ⟨ha, hnone⟩, hget⟩

/-- A value found in a list made of entries comes from one of them. -/
theorem mem_of_get?_ofList {es : List (κ × ν)} {k : κ} {v : ν} (h : (ofList es).get? k = some v) :
    ∃ a, (a, v) ∈ es := by
  rcases get?_foldl_insert empty es k with ⟨e, he, -, hget⟩ | ⟨-, hget⟩
  · obtain rfl : e.2 = v := Option.some.inj (hget.symm.trans h)
    exact ⟨e.1, he⟩
  · cases hget.symm.trans h

theorem contains_congr (m : KeyedList κ ν) {k k' : κ} (h : (k == k') = true) :
    m.contains k = m.contains k' := congrArg Option.isSome (m.get?_congr h)

theorem contains_update (m : KeyedList κ ν) (k k' : κ) (f : Option ν → ν) :
    (m.update k f).contains k' = (k == k' || m.contains k') := by
  rw [contains, get?_update]
  cases k == k' <;> rfl

theorem contains_insert (m : KeyedList κ ν) (k k' : κ) (v : ν) :
    (m.insert k v).contains k' = (k == k' || m.contains k') := contains_update m k k' _

theorem contains_insert_self (m : KeyedList κ ν) (k : κ) (v : ν) :
    (m.insert k v).contains k = true := by
  rw [contains_insert, BEq.rfl, Bool.true_or]

/-- A list made of entries has their keys. -/
theorem contains_ofList (es : List (κ × ν)) (k : κ) :
    (ofList es).contains k = es.any fun e => e.1 == k := by
  rw [contains]
  rcases get?_foldl_insert empty es k with ⟨e, he, hk, hget⟩ | ⟨hnone, hget⟩
  · have hany : (es.any fun e => e.1 == k) = true := List.any_eq_true.2 ⟨e, he, hk⟩
    rw [hany, show (ofList es).get? k = some e.2 from hget]
    rfl
  · have hany : (es.any fun e => e.1 == k) = false :=
      List.any_eq_false.2 fun e he => Bool.eq_false_iff.1 (hnone e he)
    rw [hany, show (ofList es).get? k = none from hget]
    rfl

/-- The entries of one key are one or none, with the value that is found. -/
theorem filter_entries (m : KeyedList κ ν) (k : κ) :
    (m.entries.filter (·.1 == k)).map (·.2) = (m.get? k).toList := by
  obtain ⟨es, hd⟩ := m
  show (es.filter (·.1 == k)).map (·.2) = (findEntry k es).toList
  induction es with
  | nil => rfl
  | cons e es ih =>
    have hrest := ih (List.pairwise_cons.1 hd).2
    cases he : e.1 == k with
    | true =>
      rw [findEntry_tail hd he] at hrest
      rw [List.filter_cons_of_pos (by exact he), List.map_cons, hrest]
      simp [findEntry, he]
    | false =>
      rw [List.filter_cons_of_neg (by simp [he]), hrest]
      simp [findEntry, he]

/-- An entry is found under its key. -/
theorem get?_of_mem {m : KeyedList κ ν} {e : κ × ν} (h : e ∈ m.entries) :
    m.get? e.1 = some e.2 := by
  have hmem : e.2 ∈ (m.entries.filter (·.1 == e.1)).map (·.2) :=
    List.mem_map.2 ⟨e, List.mem_filter.2 ⟨h, BEq.rfl⟩, rfl⟩
  rw [filter_entries] at hmem
  exact Option.mem_toList.1 hmem

end Lookup

end ContractCoverage.KeyedList
