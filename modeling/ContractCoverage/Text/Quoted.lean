import ContractCoverage.Text.Printable

/-! Texts in quotes.

A text is written between apostrophes, or between double quotes when it holds an
apostrophe and no double quote. The chosen quote and the backslash are escaped, and
so is every character that cannot be shown as it is. -/
namespace ContractCoverage.Text.Quoted

/-- The quote that texts are written in by default. -/
def apostrophe : Char := '\x27'

/-- The quote for texts that hold an apostrophe and nothing of this kind. -/
def doubleQuote : Char := '\x22'

/-- A number in lower-case hexadecimal, of at least `width` digits. -/
def hexDigits (width n : Nat) : List Char :=
  let digits := Nat.toDigits 16 n
  List.replicate (width - digits.length) '0' ++ digits

/-- The escape of a character by its code point, in the shortest of the three forms that fits. -/
def escapeCode (n : Nat) : List Char :=
  if n < 0x100 then '\\' :: 'x' :: hexDigits 2 n
  else if n < 0x10000 then '\\' :: 'u' :: hexDigits 4 n
  else '\\' :: 'U' :: hexDigits 8 n

/-- A character as it stands between a pair of quotes. -/
def escape (quote c : Char) : List Char :=
  if c = quote ∨ c = '\\' then ['\\', c]
  else if c = '\n' then ['\\', 'n']
  else if c = '\r' then ['\\', 'r']
  else if c = '\t' then ['\\', 't']
  else if isPrintable c then [c]
  else escapeCode c.toNat

/-- The quote a text is written in. -/
def quoteFor (s : List Char) : Char :=
  if s.contains apostrophe && !s.contains doubleQuote then doubleQuote else apostrophe

/-- A text in quotes. -/
def write (s : String) : String :=
  let quote := quoteFor s.toList
  String.ofList (quote :: (s.toList.flatMap (escape quote) ++ [quote]))

end ContractCoverage.Text.Quoted
