/-! White space, and taking it off both ends of a text.

Two sets are in use. `isBlank` is the white space that may stand around an integer
in a source map entry. `isMargin` is the larger set that may stand around a
bytecode text: it adds the four ASCII separators U+001C to U+001F. Neither holds
the zero-width characters. -/
namespace ContractCoverage.Text

/-- White space that may surround an integer. -/
def isBlank (c : Char) : Bool :=
  let n := c.toNat
  (0x09 ≤ n && n ≤ 0x0d) || n == 0x20 || n == 0x85 || n == 0xa0 || n == 0x1680 ||
    (0x2000 ≤ n && n ≤ 0x200a) || n == 0x2028 || n == 0x2029 || n == 0x202f || n == 0x205f ||
    n == 0x3000

/-- White space that may surround a bytecode text. -/
def isMargin (c : Char) : Bool :=
  isBlank c || (0x1c ≤ c.toNat && c.toNat ≤ 0x1f)

theorem isMargin_of_isBlank {c : Char} (h : isBlank c = true) : isMargin c = true := by
  simp [isMargin, h]

/-- A text without the characters of a class at its two ends. -/
def trim (p : Char → Bool) (s : List Char) : List Char :=
  ((s.dropWhile p).reverse.dropWhile p).reverse

@[simp] theorem trim_nil (p : Char → Bool) : trim p [] = [] := rfl

end ContractCoverage.Text
