import ContractCoverage.Text.Fields
import ContractCoverage.Text.Numeral

/-! What has been written is read back.

Fields that do not contain the separator come back from their join (`split_join`).
A number written in decimal, with leading zeros or without, comes back from its digits,
unless there are more of them than a number may be read from (`read?_writes`). The text
that an integer itself has is one of these (`writes_toString`), and it has few enough
digits when the integer can be written at all (`digitCount_toString_le`). -/
namespace ContractCoverage.Text

/-! ### Fields -/

theorem split_of_not_mem {sep : Char} {field : List Char} (h : sep ∉ field) :
    split sep field = [field] := by
  induction field with
  | nil => rfl
  | cons c field ih =>
    have hc := List.ne_of_not_mem_cons h
    have hfield := List.not_mem_of_not_mem_cons h
    rw [split, if_neg (Ne.symm hc), ih hfield]

/-- Splitting takes off one field at a time. -/
theorem split_append {sep : Char} {field : List Char} (h : sep ∉ field) (rest : List Char) :
    split sep (field ++ sep :: rest) = field :: split sep rest := by
  induction field with
  | nil => rw [List.nil_append, split, if_pos rfl]
  | cons c field ih =>
    have hc := List.ne_of_not_mem_cons h
    have hfield := List.not_mem_of_not_mem_cons h
    rw [List.cons_append, split, if_neg (Ne.symm hc), ih hfield]

theorem split_join {sep : Char} {fields : List (List Char)} (hne : fields ≠ [])
    (h : ∀ field ∈ fields, sep ∉ field) : split sep (join sep fields) = fields := by
  induction fields with
  | nil => exact absurd rfl hne
  | cons field fields ih =>
    obtain ⟨hfield, hfields⟩ := List.forall_mem_cons.1 h
    cases fields with
    | nil => exact split_of_not_mem hfield
    | cons next fields =>
      show split sep (field ++ sep :: join sep (next :: fields)) = _
      rw [split_append hfield, ih (by simp) hfields]

theorem toList_intercalate {separator : String} {sep : Char} (hsep : separator.toList = [sep])
    (fields : List String) :
    (String.intercalate separator fields).toList = join sep (fields.map String.toList) := by
  rw [String.toList_intercalate, hsep]
  generalize fields.map String.toList = fields
  induction fields with
  | nil => rfl
  | cons field fields ih =>
    cases fields with
    | nil => exact List.append_nil field
    | cons next fields =>
      show _ = field ++ sep :: join sep (next :: fields)
      rw [← ih]
      rfl

namespace Numeral

/-! ### Digits -/

theorem digitChar_facts : ∀ d : Fin 10,
    digitValue? (Nat.digitChar d) = some d.val ∧ isBlank (Nat.digitChar d) = false ∧
      (Nat.digitChar d).isDigit = true := by
  decide

section Digits
variable {d : Nat} (h : d < 10)
include h

theorem digitValue?_digitChar : digitValue? (Nat.digitChar d) = some d := (digitChar_facts ⟨d, h⟩).1

theorem isBlank_digitChar : isBlank (Nat.digitChar d) = false := (digitChar_facts ⟨d, h⟩).2.1

theorem isDigit_digitChar : (Nat.digitChar d).isDigit = true := (digitChar_facts ⟨d, h⟩).2.2

end Digits

/-- Without an underscore behind it a digit is read by itself. -/
theorem digits?_cons_cons {c next : Char} (rest : List Char) (h : next ≠ '_') :
    digits? (c :: next :: rest) = do
      let d ← digitValue? c
      let ds ← digits? (next :: rest)
      return d :: ds := by
  rw [digits?]
  · simp
  · intro rest' heq
    exact h (List.cons.inj heq).1

theorem digits?_map_digitChar {ds : List Nat} (hne : ds ≠ []) (h : ∀ d ∈ ds, d < 10) :
    digits? (ds.map Nat.digitChar) = some ds := by
  induction ds with
  | nil => exact absurd rfl hne
  | cons d ds ih =>
    obtain ⟨hd, hds⟩ := List.forall_mem_cons.1 h
    cases ds with
    | nil => rw [List.map_singleton, digits?, digitValue?_digitChar hd]; rfl
    | cons e ds =>
      have hunderscore : Nat.digitChar e ≠ '_' := by
        intro heq
        have hdigit := isDigit_digitChar (List.forall_mem_cons.1 hds).1
        rw [heq] at hdigit
        cases hdigit
      have hrest : digits? (Nat.digitChar e :: ds.map Nat.digitChar) = some (e :: ds) :=
        ih (by simp) hds
      rw [List.map_cons, List.map_cons, digits?_cons_cons _ hunderscore, digitValue?_digitChar hd,
        hrest]
      rfl

theorem trim_of_none {p : Char → Bool} {s : List Char} (h : ∀ c ∈ s, p c = false) :
    trim p s = s := by
  have hdrop : ∀ s : List Char, (∀ c ∈ s, p c = false) → s.dropWhile p = s := by
    intro s hs
    cases s with
    | nil => rfl
    | cons c s => rw [List.dropWhile_cons_of_neg (by simp [hs c (List.mem_cons_self ..)])]
  rw [trim, hdrop s h, hdrop s.reverse (fun c hc => h c (List.mem_reverse.1 hc)),
    List.reverse_reverse]

/-! ### Numbers -/

/-- A text is an integer in decimal: its digits, the most significant one first and perhaps with
zeros before it, after a minus sign where it is negative. -/
def Writes (s : List Char) (n : Int) : Prop :=
  ∃ ds : List Nat, ds ≠ [] ∧ (∀ d ∈ ds, d < 10) ∧
    (s = ds.map Nat.digitChar ∧ n = ofDigits ds ∨
      s = '-' :: ds.map Nat.digitChar ∧ n = -(ofDigits ds : Int))

theorem writes_digits (ds : List Nat) (hne : ds ≠ []) (h : ∀ d ∈ ds, d < 10) :
    Writes (ds.map Nat.digitChar) (ofDigits ds) := ⟨ds, hne, h, .inl ⟨rfl, rfl⟩⟩

/-- The number of digits in a text. -/
def digitCount (s : List Char) : Nat := s.countP Char.isDigit

theorem digitCount_map_digitChar {ds : List Nat} (h : ∀ d ∈ ds, d < 10) :
    digitCount (ds.map Nat.digitChar) = ds.length := by
  rw [digitCount, List.countP_map, List.countP_eq_length]
  intro d hd
  exact isDigit_digitChar (h d hd)

/-- A written number is digits after an optional minus sign. -/
theorem Writes.eq_or_isDigit {s : List Char} {n : Int} (h : Writes s n) :
    ∀ c ∈ s, c = '-' ∨ c.isDigit = true := by
  obtain ⟨ds, -, hds, hs⟩ := h
  have hdigit : ∀ c ∈ ds.map Nat.digitChar, c.isDigit = true := by
    intro c hc
    obtain ⟨d, hd, rfl⟩ := List.mem_map.1 hc
    exact isDigit_digitChar (hds d hd)
  rcases hs with ⟨rfl, -⟩ | ⟨rfl, -⟩
  · exact fun c hc => .inr (hdigit c hc)
  · intro c hc
    rcases List.mem_cons.1 hc with rfl | hc
    · exact .inl rfl
    · exact .inr (hdigit c hc)

theorem Writes.ne_nil {s : List Char} {n : Int} (h : Writes s n) : s ≠ [] := by
  obtain ⟨ds, hne, -, ⟨rfl, -⟩ | ⟨rfl, -⟩⟩ := h
  · simpa using hne
  · simp

/-- The characters of digits tell the digits. -/
theorem map_digitChar_inj {ds es : List Nat} (hne : ds ≠ []) (hds : ∀ d ∈ ds, d < 10)
    (hes : ∀ d ∈ es, d < 10) (h : ds.map Nat.digitChar = es.map Nat.digitChar) : ds = es := by
  have hne' : es ≠ [] := fun hnil => hne (List.map_eq_nil_iff.1 (h.trans (by rw [hnil]; rfl)))
  have hread := digits?_map_digitChar hne hds
  rw [h, digits?_map_digitChar hne' hes] at hread
  exact (Option.some.inj hread).symm

/-- A text is written for one number at most. -/
theorem Writes.unique {s : List Char} {m n : Int} (hm : Writes s m) (hn : Writes s n) : m = n := by
  have hminus : ∀ {ds es : List Nat}, (∀ d ∈ ds, d < 10) →
      ds.map Nat.digitChar ≠ '-' :: es.map Nat.digitChar := by
    intro ds es hds heq
    obtain ⟨d, hd, hchar⟩ := List.mem_map.1 (heq ▸ List.mem_cons_self ..)
    have hdigit := isDigit_digitChar (hds d hd)
    rw [hchar] at hdigit
    cases hdigit
  obtain ⟨ds, hne, hds, ⟨rfl, rfl⟩ | ⟨rfl, rfl⟩⟩ := hm <;>
    obtain ⟨es, -, hes, ⟨hs, rfl⟩ | ⟨hs, rfl⟩⟩ := hn
  · rw [map_digitChar_inj hne hds hes hs]
  · exact absurd hs (hminus hds)
  · exact absurd hs.symm (hminus hes)
  · rw [map_digitChar_inj hne hds hes (List.cons.inj hs).2]

/-- A number written in decimal is read back when it has few enough digits, and refused when not. -/
theorem read?_writes {s : List Char} {n : Int} (h : Writes s n) :
    read? s = if digitCount s ≤ maxDigits then some n else none := by
  obtain ⟨ds, hne, hds, hs⟩ := h
  have hread := digits?_map_digitChar hne hds
  have hcount := digitCount_map_digitChar hds
  have hblank : ∀ c ∈ ds.map Nat.digitChar, isBlank c = false := by
    intro c hc
    obtain ⟨d, hd, rfl⟩ := List.mem_map.1 hc
    exact isBlank_digitChar (hds d hd)
  rcases hs with ⟨rfl, rfl⟩ | ⟨rfl, rfl⟩
  · have hsign : splitSign (ds.map Nat.digitChar) = (false, ds.map Nat.digitChar) := by
      have hfirst : ∀ c ∈ ds.map Nat.digitChar, c ≠ '-' ∧ c ≠ '+' := by
        intro c hc
        obtain ⟨d, hd, rfl⟩ := List.mem_map.1 hc
        have hdigit := isDigit_digitChar (hds d hd)
        constructor <;> (intro heq; rw [heq] at hdigit; cases hdigit)
      unfold splitSign
      split
      · next hc => exact absurd rfl (hfirst '-' (by rw [hc]; exact List.mem_cons_self ..)).1
      · next hc => exact absurd rfl (hfirst '+' (by rw [hc]; exact List.mem_cons_self ..)).2
      · rfl
    rw [hcount, read?, trim_of_none hblank, hsign]
    simp only [hread, Option.bind_eq_bind, Option.bind_some]
    rfl
  · have hminus : ∀ c ∈ '-' :: ds.map Nat.digitChar, isBlank c = false :=
      List.forall_mem_cons.2 ⟨rfl, hblank⟩
    have hall : digitCount ('-' :: ds.map Nat.digitChar) = ds.length := by
      rw [digitCount, List.countP_cons_of_neg (by decide)]
      exact hcount
    rw [hall, read?, trim_of_none hminus, splitSign]
    simp only [hread, Option.bind_eq_bind, Option.bind_some]
    rfl

/-! ### The text of an integer -/

/-- The decimal text of a natural number is made of the digits that stand for it. -/
theorem exists_toDigits (n : Nat) :
    ∃ ds : List Nat, ds ≠ [] ∧ (∀ d ∈ ds, d < 10) ∧
      Nat.toDigits 10 n = ds.map Nat.digitChar ∧ ofDigits ds = n := by
  induction n using Nat.strongRecOn with
  | ind n ih =>
    by_cases hn : n < 10
    · exact ⟨[n], by simp, by simpa using hn, Nat.toDigits_of_lt_base hn, Nat.zero_add n⟩
    · obtain ⟨ds, -, hds, htext, hvalue⟩ := ih (n / 10) (by omega)
      refine ⟨ds ++ [n % 10], by simp, ?_, ?_, ?_⟩
      · intro d hd
        rcases List.mem_append.1 hd with hd | hd
        · exact hds d hd
        · rw [List.mem_singleton.1 hd]
          omega
      · rw [Nat.toDigits_of_base_le (by decide) (Nat.not_lt.1 hn), htext, List.map_append,
          List.map_singleton]
      · rw [ofDigits, List.foldl_append]
        show 10 * ofDigits ds + n % 10 = n
        omega

theorem toList_toString_natCast (n : Nat) :
    (toString (n : Int)).toList = Nat.toDigits 10 n := by
  show n.repr.toList = _
  rw [Nat.repr_eq_ofList_toDigits, String.toList_ofList]

theorem toList_toString_neg {n : Nat} (hn : n ≠ 0) :
    (toString (-(n : Int))).toList = '-' :: Nat.toDigits 10 n := by
  obtain ⟨m, rfl⟩ := Nat.exists_eq_succ_of_ne_zero hn
  show ("-" ++ (m + 1).repr).toList = _
  rw [Nat.repr_eq_ofList_toDigits, String.toList_append, String.toList_ofList]
  exact congrArg ('-' :: ·) (String.toList_ofList ..)

theorem writes_toString (n : Int) : Writes (toString n).toList n := by
  obtain ⟨ds, hne, hds, htext, hvalue⟩ := exists_toDigits n.natAbs
  refine ⟨ds, hne, hds, ?_⟩
  rcases Int.natAbs_eq n with hn | hn
  · left
    rw [hvalue, ← htext, ← toList_toString_natCast, ← hn]
    exact ⟨rfl, rfl⟩
  · by_cases hzero : n.natAbs = 0
    · left
      obtain rfl : n = 0 := Int.natAbs_eq_zero.1 hzero
      rw [hvalue, ← htext, ← toList_toString_natCast]
      exact ⟨rfl, rfl⟩
    · right
      rw [hvalue, ← htext, ← toList_toString_neg hzero, ← hn]
      exact ⟨rfl, rfl⟩

theorem digitCount_toDigits (n : Nat) :
    digitCount (Nat.toDigits 10 n) = (Nat.toDigits 10 n).length :=
  List.countP_eq_length.2 fun _ hc => Nat.isDigit_of_mem_toDigits (by decide) (by decide) hc

theorem length_toDigits_le {n k : Nat} (hk : 0 < k) (h : n < Nat.pow 10 k) :
    (Nat.toDigits 10 n).length ≤ k := (Nat.length_toDigits_le_iff (by decide) hk).2 h

/-- An integer that can be written has few enough digits to be read. -/
theorem digitCount_toString_le {n : Int} (h : isWritable n = true) :
    digitCount (toString n).toList ≤ maxDigits := by
  have hbound := isWritable_iff.1 h
  unfold writingBound at hbound
  have hcount : digitCount (Nat.toDigits 10 n.natAbs) ≤ maxDigits := by
    rw [digitCount_toDigits]
    exact length_toDigits_le (by decide) hbound
  rcases Int.natAbs_eq n with hn | hn
  · rw [hn, toList_toString_natCast]
    exact hcount
  · by_cases hzero : n.natAbs = 0
    · rw [Int.natAbs_eq_zero.1 hzero]
      decide
    · rw [hn, toList_toString_neg hzero, digitCount, List.countP_cons_of_neg (by decide)]
      exact hcount

end Numeral

end ContractCoverage.Text
