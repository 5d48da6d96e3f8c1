import ContractCoverage.Text.Blank
import ContractCoverage.Text.DecimalDigit

/-! Integer literals as they stand in the fields of a source map.

A literal is white space, an optional sign, decimal digits of any script with at
most one underscore between two of them, and white space again. Leading zeros are
allowed, and a literal has at most `maxDigits` digits. An integer that needs more
digits than that cannot be written either; `isWritable_of_read?` says that whatever has
been read can be written. -/
namespace ContractCoverage.Text.Numeral

/-- The most digits that an integer may be read from or written with. -/
def maxDigits : Nat := 4300

/-- The values of a run of digits in which single underscores may stand between digits. -/
def digits? : List Char → Option (List Nat)
  | [] => none
  | [c] => (digitValue? c).map ([·])
  | c :: '_' :: rest => do
    let d ← digitValue? c
    let ds ← digits? rest
    return d :: ds
  | c :: rest => do
    let d ← digitValue? c
    let ds ← digits? rest
    return d :: ds

/-- The number that digits stand for, the most significant one first. -/
def ofDigits (ds : List Nat) : Nat :=
  ds.foldl (fun value d => 10 * value + d) 0

/-- Whether a literal starts with a minus sign, and what follows its sign. -/
def splitSign : List Char → Bool × List Char
  | '-' :: rest => (true, rest)
  | '+' :: rest => (false, rest)
  | rest => (false, rest)

/-- The integer that a literal stands for, or `none` when the text is no literal. -/
def read? (s : List Char) : Option Int := do
  let (negative, body) := splitSign (trim isBlank s)
  let ds ← digits? body
  if ds.length ≤ maxDigits then
    return if negative then -(ofDigits ds : Int) else ofDigits ds
  else
    none

/-! ### Which integers can be written -/

/-- The least number with too many digits. -/
def writingBound : Nat := Nat.pow 10 maxDigits

/-- Whether an integer can be written. -/
def isWritable (n : Int) : Bool := n.natAbs < writingBound

theorem isWritable_iff {n : Int} : isWritable n = true ↔ n.natAbs < writingBound := by
  simp [isWritable]

@[simp] theorem isWritable_neg (n : Int) : isWritable (-n) = isWritable n := by
  simp [isWritable]

theorem writingBound_pos : 0 < writingBound := by
  unfold writingBound
  generalize maxDigits = digits
  exact Nat.pow_pos (Nat.succ_pos 9)

theorem not_isWritable_writingBound : isWritable writingBound = false := by
  rw [← Bool.not_eq_true, isWritable_iff, Int.natAbs_natCast]
  exact Nat.lt_irrefl writingBound

theorem lt_ten_of_digits? {s : List Char} {ds : List Nat} (h : digits? s = some ds) :
    ∀ d ∈ ds, d < 10 := by
  have cons : ∀ {c : Char} {rest : List Char} {ds : List Nat},
      (do let d ← digitValue? c; let ds ← digits? rest; return d :: ds : Option (List Nat)) =
        some ds →
      (∀ {ds}, digits? rest = some ds → ∀ d ∈ ds, d < 10) → ∀ d ∈ ds, d < 10 := by
    intro c rest ds h ih
    cases hd : digitValue? c with
    | none => rw [hd] at h; cases h
    | some d =>
      cases hr : digits? rest with
      | none => rw [hd, hr] at h; cases h
      | some ds' =>
        rw [hd, hr] at h
        cases h
        simpa using ⟨digitValue?_lt hd, ih hr⟩
  fun_induction digits? s generalizing ds with
  | case1 => cases h
  | case2 c =>
    obtain ⟨d, hd, rfl⟩ := Option.map_eq_some_iff.1 h
    simpa using digitValue?_lt hd
  | case3 c rest ih => exact cons h ih
  | case4 c rest _ _ ih => exact cons h ih

theorem foldl_digits_lt {ds : List Nat} (h : ∀ d ∈ ds, d < 10) (value : Nat) :
    ds.foldl (fun value d => 10 * value + d) value < (value + 1) * Nat.pow 10 ds.length := by
  induction ds generalizing value with
  | nil => simp
  | cons d ds ih =>
    have hd := h d List.mem_cons_self
    have hr := ih (fun e he => h e (List.mem_cons_of_mem d he)) (10 * value + d)
    refine Nat.lt_of_lt_of_le hr ?_
    show (10 * value + d + 1) * Nat.pow 10 ds.length ≤ (value + 1) * (Nat.pow 10 ds.length * 10)
    rw [Nat.mul_comm (Nat.pow 10 ds.length) 10, ← Nat.mul_assoc]
    exact Nat.mul_le_mul_right _ (by omega)

theorem pow_ten_le {m n : Nat} (h : m ≤ n) : Nat.pow 10 m ≤ Nat.pow 10 n :=
  Nat.pow_le_pow_right (by decide) h

/-- A number of few enough digits can be written. -/
theorem isWritable_ofDigits {ds : List Nat} (h : ∀ d ∈ ds, d < 10) (hl : ds.length ≤ maxDigits) :
    isWritable (ofDigits ds) = true := by
  have hv := foldl_digits_lt h 0
  rw [Nat.zero_add, Nat.one_mul] at hv
  refine isWritable_iff.2 (Nat.lt_of_lt_of_le hv ?_)
  unfold writingBound
  exact pow_ten_le hl

/-- An integer that has been read can be written. -/
theorem isWritable_of_read? {s : List Char} {n : Int} (h : read? s = some n) :
    isWritable n = true := by
  unfold read? at h
  generalize splitSign (trim isBlank s) = split at h
  obtain ⟨negative, body⟩ := split
  cases hd : digits? body with
  | none => simp [hd] at h
  | some ds =>
    have hw := isWritable_ofDigits (lt_ten_of_digits? hd)
    simp only [hd, Option.bind_eq_bind, Option.bind_some, Option.pure_def] at h
    split at h
    · next hl =>
      cases h
      cases negative
      · exact hw hl
      · simpa using hw hl
    · cases h

end ContractCoverage.Text.Numeral
