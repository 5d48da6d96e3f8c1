import ContractCoverage.Text.Blank
import ContractCoverage.Text.Hex

/-! Hexadecimal texts that can be read, and what they are read as.

A text can be read when it is made of white space and of pairs of digits (`Reads`), and
then it does not matter where in a longer text it stands. So texts are read one after the
other (`Reads.append`), and what is read behind a text that has been read to its end is
read by itself (`Reads.rest`). -/
namespace ContractCoverage.Text

/-! ### Digits, white space and margins -/

namespace Hex

/-- Whether a character is a hexadecimal digit. -/
def isDigit (c : Char) : Bool := (digitValue? c).isSome

theorem digit_range {c : Char} (h : isDigit c = true) :
    0x30 ≤ c.toNat ∧ c.toNat ≤ 0x39 ∨ 0x41 ≤ c.toNat ∧ c.toNat ≤ 0x46 ∨
      0x61 ≤ c.toNat ∧ c.toNat ≤ 0x66 := by
  unfold isDigit digitValue? at h
  simp only at h
  split at h
  · omega
  · split at h
    · omega
    · split at h
      · omega
      · cases h

theorem isMargin_of_isDigit {c : Char} (h : isDigit c = true) : isMargin c = false := by
  have hrange := digit_range h
  simp only [isMargin, isBlank, Bool.or_eq_false_iff, Bool.and_eq_false_iff, beq_eq_false_iff_ne,
    decide_eq_false_iff_not]
  omega

theorem isGap_of_isDigit {c : Char} (h : isDigit c = true) : isGap c = false := by
  have hrange := digit_range h
  simp only [isGap, Bool.or_eq_false_iff, Bool.and_eq_false_iff, beq_eq_false_iff_ne,
    decide_eq_false_iff_not]
  omega

/-- A character that is due in a hexadecimal text is one of ASCII. -/
theorem lt_of_isGap_or_isDigit {c : Char} (h : isGap c = true ∨ isDigit c = true) :
    c.toNat < 128 := by
  rcases h with h | h
  · simp only [isGap, Bool.or_eq_true, Bool.and_eq_true, beq_iff_eq, decide_eq_true_eq] at h
    omega
  · have hrange := digit_range h
    omega

/-! ### Reading -/

/-- A text is read as bytes: two digits each, with white space between them. -/
inductive Reads : List Char → List UInt8 → Prop
  | nil : Reads [] []
  | gap {c : Char} {rest : List Char} {bytes : List UInt8} (hc : isGap c = true)
      (h : Reads rest bytes) : Reads (c :: rest) bytes
  | byte {c d : Char} {high low : Nat} {rest : List Char} {bytes : List UInt8}
      (hc : digitValue? c = some high) (hd : digitValue? d = some low) (h : Reads rest bytes) :
      Reads (c :: d :: rest) (UInt8.ofNat (16 * high + low) :: bytes)

theorem decodeFrom_gap {c : Char} (h : isGap c = true) (position : Nat) (rest : List Char) :
    decodeFrom position (c :: rest) = decodeFrom (position + 1) rest := by
  cases rest with
  | nil => simp only [decodeFrom, h, if_true]
  | cons d rest => rw [decodeFrom, if_pos h]

theorem decodeFrom_of_reads {s : List Char} {bytes : List UInt8} (h : Reads s bytes)
    (position : Nat) : decodeFrom position s = .ok bytes := by
  induction h generalizing position with
  | nil => rw [decodeFrom]
  | gap hc _ ih => rw [decodeFrom_gap hc, ih]
  | @byte c d high low rest bytes hc hd _ ih =>
    have hgap : isGap c = false := isGap_of_isDigit (by rw [isDigit, hc]; rfl)
    rw [decodeFrom, if_neg (by simp [hgap])]
    simp only [hc, hd, ih]
    rfl

theorem reads_of_decodeFrom {position : Nat} {s : List Char} {bytes : List UInt8}
    (h : decodeFrom position s = .ok bytes) : Reads s bytes := by
  fun_induction decodeFrom position s generalizing bytes with
  | case1 =>
    cases h
    exact .nil
  | case2 _ c hgap =>
    cases h
    exact .gap hgap .nil
  | case3 => cases h
  | case4 => cases h
  | case5 _ c d rest hgap ih => exact .gap hgap (ih h)
  | case6 => cases h
  | case7 => cases h
  | case8 position c d rest hgap high low hd hc ih =>
    cases hrest : decodeFrom (position + 2) rest with
    | error position' =>
      rw [hrest] at h
      cases h
    | ok bytes' =>
      rw [hrest] at h
      cases h
      exact .byte hc hd (ih hrest)

/-- A text that can be read has nothing but white space and digits in it. -/
theorem Reads.forall_mem {s : List Char} {bytes : List UInt8} (h : Reads s bytes) :
    ∀ c ∈ s, isGap c = true ∨ isDigit c = true := by
  induction h with
  | nil => exact fun c hc => absurd hc List.not_mem_nil
  | gap hc _ ih => exact List.forall_mem_cons.2 ⟨.inl hc, ih⟩
  | byte hc hd _ ih =>
    refine List.forall_mem_cons.2 ⟨.inr ?_, List.forall_mem_cons.2 ⟨.inr ?_, ih⟩⟩
    · rw [isDigit, hc]
      rfl
    · rw [isDigit, hd]
      rfl

/-- Where a text stands does not matter for what it is read as. -/
theorem decode_eq_ok_iff {s : List Char} {bytes : List UInt8} :
    decode s = .ok bytes ↔ Reads s bytes := by
  unfold decode
  constructor
  · intro h
    split at h
    · cases h
    · exact reads_of_decodeFrom h
  · intro h
    have hnone : s.findIdx? (128 ≤ ·.toNat) = none := by
      rw [List.findIdx?_eq_none_iff]
      intro c hc
      have hlt := lt_of_isGap_or_isDigit (h.forall_mem c hc)
      simp only [decide_eq_false_iff_not]
      omega
    rw [hnone]
    exact decodeFrom_of_reads h 0

theorem Reads.append {s t : List Char} {bytes more : List UInt8} (h : Reads s bytes)
    (ht : Reads t more) : Reads (s ++ t) (bytes ++ more) := by
  induction h with
  | nil => exact ht
  | gap hc _ ih => exact .gap hc ih
  | byte hc hd _ ih => exact .byte hc hd ih

theorem Reads.of_gap {c : Char} {s : List Char} {bytes : List UInt8} (hc : isGap c = true)
    (h : Reads (c :: s) bytes) : Reads s bytes := by
  cases h with
  | gap _ h => exact h
  | byte hdigit _ _ =>
    rw [isGap_of_isDigit (by rw [isDigit, hdigit]; rfl)] at hc
    cases hc

/-- What stands behind a text that can be read is read by itself. -/
theorem Reads.rest {s t : List Char} {bytes all : List UInt8} (h : Reads s bytes)
    (hall : Reads (s ++ t) all) : ∃ more, all = bytes ++ more ∧ Reads t more := by
  induction h generalizing all with
  | nil => exact ⟨all, rfl, hall⟩
  | gap hc _ ih => exact ih (hall.of_gap hc)
  | @byte c d high low rest bytes hc hd _ ih =>
    cases hall with
    | gap hgap _ =>
      rw [isGap_of_isDigit (by rw [isDigit, hc]; rfl)] at hgap
      cases hgap
    | byte hc' hd' hall =>
      obtain ⟨more, rfl, hmore⟩ := ih hall
      rw [hc] at hc'
      rw [hd] at hd'
      cases hc'
      cases hd'
      exact ⟨more, rfl, hmore⟩

/-- White space is read as nothing. -/
theorem reads_of_gaps {s : List Char} (h : ∀ c ∈ s, isGap c = true) : Reads s [] := by
  induction s with
  | nil => exact .nil
  | cons c s ih =>
    obtain ⟨hc, hs⟩ := List.forall_mem_cons.1 h
    exact .gap hc (ih hs)

/-- Digits in pairs are read as one byte for each pair. -/
theorem reads_of_digits {s : List Char} {n : Nat} (h : ∀ c ∈ s, isDigit c = true)
    (hlength : s.length = 2 * n) : ∃ bytes, Reads s bytes ∧ bytes.length = n := by
  induction n generalizing s with
  | zero =>
    rw [List.length_eq_zero_iff.1 hlength]
    exact ⟨[], .nil, rfl⟩
  | succ n ih =>
    match s, h, hlength with
    | c :: d :: rest, h, hlength =>
      simp only [List.forall_mem_cons] at h
      obtain ⟨hc, hd, hrest⟩ := h
      obtain ⟨high, hhigh⟩ := Option.isSome_iff_exists.1 hc
      obtain ⟨low, hlow⟩ := Option.isSome_iff_exists.1 hd
      obtain ⟨bytes, hreads, hbytes⟩ := ih hrest (by simp only [List.length_cons] at hlength; omega)
      exact ⟨_, .byte hhigh hlow hreads, by rw [List.length_cons, hbytes]⟩

end Hex

end ContractCoverage.Text
