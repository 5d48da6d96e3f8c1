/-! Bytes as hexadecimal text.

Writing gives two lower-case digits a byte. Reading takes digits of either case and
skips ASCII white space between bytes, not inside one. A text that cannot be read is
refused with the position of the offending character; `decode_encode` says that
what was written is read back. -/
namespace ContractCoverage.Text.Hex

/-- The lower-case digit of a value below 16. -/
def digit (n : Nat) : Char :=
  if n < 10 then Char.ofNat (0x30 + n) else Char.ofNat (0x57 + n)

/-- The value of a hexadecimal digit of either case. -/
def digitValue? (c : Char) : Option Nat :=
  let n := c.toNat
  if 0x30 ≤ n ∧ n ≤ 0x39 then some (n - 0x30)
  else if 0x41 ≤ n ∧ n ≤ 0x46 then some (n - 0x37)
  else if 0x61 ≤ n ∧ n ≤ 0x66 then some (n - 0x57)
  else none

/-- The white space of ASCII. -/
def isGap (c : Char) : Bool :=
  (0x09 ≤ c.toNat && c.toNat ≤ 0x0d) || c.toNat == 0x20

/-- Two digits a byte, the high one first. -/
def encode (bytes : List UInt8) : List Char :=
  bytes.flatMap fun b => [digit (b.toNat / 16), digit (b.toNat % 16)]

/-- Bytes as text. -/
def encodeText (bytes : List UInt8) : String :=
  String.ofList (encode bytes)

/-- Reads an ASCII text from a position on. The error is the position of the character that is no
digit where one is due, or the length when the text ends in the middle of a byte. -/
def decodeFrom (position : Nat) : List Char → Except Nat (List UInt8)
  | [] => .ok []
  | [c] =>
    if isGap c then .ok []
    else match digitValue? c with
      | none => .error position
      | some _ => .error (position + 1)
  | c :: d :: rest =>
    if isGap c then decodeFrom (position + 1) (d :: rest)
    else match digitValue? c, digitValue? d with
      | none, _ => .error position
      | some _, none => .error (position + 1)
      | some high, some low =>
        (decodeFrom (position + 2) rest).map (UInt8.ofNat (16 * high + low) :: ·)

/-- Reads a text. When it has characters beyond ASCII, the first of them is the offending one,
wherever it stands. -/
def decode (s : List Char) : Except Nat (List UInt8) :=
  match s.findIdx? (128 ≤ ·.toNat) with
  | some position => .error position
  | none => decodeFrom 0 s

/-! ### Reading back -/

theorem digit_facts : ∀ n : Fin 16,
    isGap (digit n) = false ∧ digitValue? (digit n) = some n.val ∧ (digit n).toNat < 128 := by
  decide

theorem isGap_digit {n : Nat} (h : n < 16) : isGap (digit n) = false :=
  (digit_facts ⟨n, h⟩).1

theorem digitValue?_digit {n : Nat} (h : n < 16) : digitValue? (digit n) = some n :=
  (digit_facts ⟨n, h⟩).2.1

theorem digit_lt {n : Nat} (h : n < 16) : (digit n).toNat < 128 :=
  (digit_facts ⟨n, h⟩).2.2

theorem encode_nil : encode [] = [] := rfl

theorem encode_cons (b : UInt8) (bytes : List UInt8) :
    encode (b :: bytes) = digit (b.toNat / 16) :: digit (b.toNat % 16) :: encode bytes := rfl

theorem length_encode (bytes : List UInt8) : (encode bytes).length = 2 * bytes.length := by
  induction bytes with
  | nil => rfl
  | cons b bytes ih => simp only [encode_cons, List.length_cons, ih]; omega

theorem toNat_lt_of_mem_encode {bytes : List UInt8} {c : Char} (h : c ∈ encode bytes) :
    c.toNat < 128 := by
  simp only [encode, List.mem_flatMap, List.mem_cons, List.not_mem_nil, or_false] at h
  obtain ⟨b, -, rfl | rfl⟩ := h
  · exact digit_lt (by have := b.toNat_lt; omega)
  · exact digit_lt (by omega)

theorem decodeFrom_encode (position : Nat) (bytes : List UInt8) :
    decodeFrom position (encode bytes) = .ok bytes := by
  induction bytes generalizing position with
  | nil => rfl
  | cons b bytes ih =>
    have hb : b.toNat / 16 < 16 := by have := b.toNat_lt; omega
    have hl : b.toNat % 16 < 16 := by omega
    have hv : UInt8.ofNat (16 * (b.toNat / 16) + b.toNat % 16) = b := by
      rw [Nat.div_add_mod]; exact UInt8.ofNat_toNat
    rw [encode_cons, decodeFrom, if_neg (by simp [isGap_digit hb])]
    simp only [digitValue?_digit hb, digitValue?_digit hl, ih, hv]
    rfl

theorem decode_encode (bytes : List UInt8) : decode (encode bytes) = .ok bytes := by
  have : (encode bytes).findIdx? (128 ≤ ·.toNat) = none := by
    rw [List.findIdx?_eq_none_iff]
    intro c hc
    have := toNat_lt_of_mem_encode hc
    simp only [decide_eq_false_iff_not]; omega
  simp only [decode, this, decodeFrom_encode]

end ContractCoverage.Text.Hex
