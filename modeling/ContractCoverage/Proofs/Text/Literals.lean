import ContractCoverage.Proofs.Data.Chain
import ContractCoverage.Proofs.Text.Margins
import ContractCoverage.Proofs.Text.Written

/-! Integer literals by their grammar.

A literal is white space, a sign or none, a run of digits and white space again
(`Literal`); its digits may be as many as one likes. An integer is read from a text exactly
when the text is a literal of few enough digits, and then it is the one that the literal
stands for (`read?_eq_some_iff`). -/
namespace ContractCoverage.Text

/-! ### The grammar -/

/-- Decimal digits of any script, with at most one underscore between two of them. -/
inductive DigitRun : List Char → List Nat → Prop
  | one {c : Char} {d : Nat} (h : digitValue? c = some d) : DigitRun [c] [d]
  | next {c : Char} {d : Nat} {s : List Char} {ds : List Nat} (h : digitValue? c = some d)
      (hs : DigitRun s ds) : DigitRun (c :: s) (d :: ds)
  | grouped {c : Char} {d : Nat} {s : List Char} {ds : List Nat} (h : digitValue? c = some d)
      (hs : DigitRun s ds) : DigitRun (c :: '_' :: s) (d :: ds)

/-- What may stand in front of the digits, and whether it makes the integer negative. -/
inductive Sign : List Char → Bool → Prop
  | absent : Sign [] false
  | plus : Sign ['+'] false
  | minus : Sign ['-'] true

/-- A text is an integer literal, with its sign and its digits. -/
inductive Literal : List Char → Bool → List Nat → Prop
  | mk {before sign body after : List Char} {negative : Bool} {ds : List Nat}
      (hbefore : ∀ c ∈ before, isBlank c = true) (hsign : Sign sign negative)
      (hbody : DigitRun body ds) (hafter : ∀ c ∈ after, isBlank c = true) :
      Literal (before ++ (sign ++ body ++ after)) negative ds

/-- A text is a literal of at most `most` digits for an integer. -/
def IsInteger (most : Nat) (s : List Char) (n : Int) : Prop :=
  ∃ negative ds, Literal s negative ds ∧ ds.length ≤ most ∧
    n = if negative then -(Numeral.ofDigits ds : Int) else Numeral.ofDigits ds

/-! ### Characters -/

/-- The code points of white space around an integer. -/
def blankCodes : List Nat :=
  [0x09, 0x0a, 0x0b, 0x0c, 0x0d, 0x20, 0x85, 0xa0, 0x1680, 0x2000, 0x2001, 0x2002, 0x2003, 0x2004,
    0x2005, 0x2006, 0x2007, 0x2008, 0x2009, 0x200a, 0x2028, 0x2029, 0x202f, 0x205f, 0x3000]

theorem mem_blankCodes {c : Char} (h : isBlank c = true) : c.toNat ∈ blankCodes := by
  simp only [isBlank, Bool.or_eq_true, Bool.and_eq_true, decide_eq_true_eq, beq_iff_eq] at h
  simp only [blankCodes, List.mem_cons, List.not_mem_nil, or_false]
  omega

theorem digitZeros_apart : ∀ n ∈ blankCodes, ∀ z ∈ digitZeros, ¬ (z ≤ n ∧ n < z + 10) := by
  decide

/-- A digit is no white space. -/
theorem isBlank_of_digit {c : Char} {d : Nat} (h : digitValue? c = some d) :
    isBlank c = false := by
  refine Bool.eq_false_iff.2 fun hblank => ?_
  obtain ⟨z, hz, -⟩ := Option.map_eq_some_iff.1 h
  have hfound := List.find?_some hz
  simp only [Bool.and_eq_true, decide_eq_true_eq] at hfound
  exact digitZeros_apart _ (mem_blankCodes hblank) z (List.mem_of_find?_eq_some hz) hfound

/-- A digit is no sign and no underscore. -/
theorem ne_of_digit {c : Char} {d : Nat} (h : digitValue? c = some d) :
    c ≠ '+' ∧ c ≠ '-' ∧ c ≠ '_' := by
  have hne : ∀ e, digitValue? e = none → c ≠ e := by
    rintro e he rfl
    rw [he] at h
    cases h
  exact ⟨hne _ (by decide), hne _ (by decide), hne _ (by decide)⟩

/-! ### Runs of digits -/

namespace Numeral

theorem digitRun_of_digits? {s : List Char} {ds : List Nat} (h : digits? s = some ds) :
    DigitRun s ds := by
  fun_induction digits? s generalizing ds with
  | case1 => cases h
  | case2 c =>
    obtain ⟨d, hd, rfl⟩ := Option.map_eq_some_iff.1 h
    exact .one hd
  | case3 c rest ih =>
    obtain ⟨d, hd, h⟩ := Option.bind_eq_some_iff.1 h
    obtain ⟨ds, hds, h⟩ := Option.bind_eq_some_iff.1 h
    cases h
    exact .grouped hd (ih hds)
  | case4 c rest _ _ ih =>
    obtain ⟨d, hd, h⟩ := Option.bind_eq_some_iff.1 h
    obtain ⟨ds, hds, h⟩ := Option.bind_eq_some_iff.1 h
    cases h
    exact .next hd (ih hds)

theorem digits?_of_digitRun {s : List Char} {ds : List Nat} (h : DigitRun s ds) :
    digits? s = some ds := by
  induction h with
  | one h => rw [digits?, h]; rfl
  | @next c d s ds h hs ih =>
    cases hs with
    | one h' => rw [digits?_cons_cons _ (ne_of_digit h').2.2, h, ih]; rfl
    | next h' => rw [digits?_cons_cons _ (ne_of_digit h').2.2, h, ih]; rfl
    | grouped h' => rw [digits?_cons_cons _ (ne_of_digit h').2.2, h, ih]; rfl
  | grouped h hs ih => rw [digits?, h, ih]; rfl

end Numeral

theorem DigitRun.head {s : List Char} {ds : List Nat} (h : DigitRun s ds) :
    ∃ c rest d, s = c :: rest ∧ digitValue? c = some d := by
  cases h with
  | one h => exact ⟨_, _, _, rfl, h⟩
  | next h => exact ⟨_, _, _, rfl, h⟩
  | grouped h => exact ⟨_, _, _, rfl, h⟩

/-- A run of digits ends with a digit. -/
theorem DigitRun.last {s : List Char} {ds : List Nat} (h : DigitRun s ds) :
    ∃ rest c d, s = rest ++ [c] ∧ digitValue? c = some d := by
  induction h with
  | @one c d h => exact ⟨[], c, d, rfl, h⟩
  | @next c _ _ _ _ _ ih =>
    obtain ⟨rest, last, d, rfl, hlast⟩ := ih
    exact ⟨c :: rest, last, d, rfl, hlast⟩
  | @grouped c _ _ _ _ _ ih =>
    obtain ⟨rest, last, d, rfl, hlast⟩ := ih
    exact ⟨c :: '_' :: rest, last, d, rfl, hlast⟩

/-! ### Signs -/

namespace Numeral

theorem sign_splitSign (s : List Char) :
    ∃ sign, s = sign ++ (splitSign s).2 ∧ Sign sign (splitSign s).1 := by
  unfold splitSign
  split
  · exact ⟨['-'], rfl, .minus⟩
  · exact ⟨['+'], rfl, .plus⟩
  · exact ⟨[], rfl, .absent⟩

/-- The sign in front of a run of digits is found. -/
theorem splitSign_append {sign body : List Char} {negative : Bool} {ds : List Nat}
    (hsign : Sign sign negative) (hbody : DigitRun body ds) :
    splitSign (sign ++ body) = (negative, body) := by
  cases hsign with
  | plus => rfl
  | minus => rfl
  | absent =>
    obtain ⟨c, rest, d, rfl, hc⟩ := hbody.head
    obtain ⟨hplus, hminus, -⟩ := ne_of_digit hc
    rw [List.nil_append, splitSign]
    · exact fun _ heq => hminus (List.cons.inj heq).1
    · exact fun _ heq => hplus (List.cons.inj heq).1

/-! ### Literals -/

theorem trim_literal {before sign body after : List Char} {negative : Bool} {ds : List Nat}
    (hbefore : ∀ c ∈ before, isBlank c = true) (hsign : Sign sign negative)
    (hbody : DigitRun body ds) (hafter : ∀ c ∈ after, isBlank c = true) :
    trim isBlank (before ++ (sign ++ body ++ after)) = sign ++ body := by
  refine trim_append hbefore hafter ?_ ?_
  · obtain ⟨first, rest, d, rfl, hfirst⟩ := hbody.head
    intro c hc
    cases hsign <;> cases hc
    · exact isBlank_of_digit hfirst
    · rfl
    · rfl
  · obtain ⟨rest, last, d, rfl, hlast⟩ := hbody.last
    intro c hc
    rw [← List.append_assoc, List.getLast?_concat] at hc
    cases hc
    exact isBlank_of_digit hlast

/-- The parts of a literal are those that are told apart in reading it. -/
theorem literal_iff {s : List Char} {negative : Bool} {ds : List Nat} :
    Literal s negative ds ↔ ∃ body, splitSign (trim isBlank s) = (negative, body) ∧
      digits? body = some ds := by
  constructor
  · rintro ⟨hbefore, hsign, hbody, hafter⟩
    rw [trim_literal hbefore hsign hbody hafter, splitSign_append hsign hbody]
    exact ⟨_, rfl, digits?_of_digitRun hbody⟩
  · rintro ⟨body, hsplit, hdigits⟩
    obtain ⟨sign, htrim, hsign⟩ := sign_splitSign (trim isBlank s)
    rw [hsplit] at htrim hsign
    have hparts := takeWhile_trim_trailing isBlank s
    rw [htrim] at hparts
    have hbefore : ∀ c ∈ s.takeWhile isBlank, isBlank c = true := fun c hc =>
      List.all_eq_true.1 List.all_takeWhile c hc
    rw [← hparts]
    exact .mk hbefore hsign (digitRun_of_digits? hdigits) fun c hc => of_mem_trailing hc

/-- Decimal digits are a literal by themselves. -/
theorem literal_map_digitChar {ds : List Nat} (hne : ds ≠ []) (h : ∀ d ∈ ds, d < 10) :
    Literal (ds.map Nat.digitChar) false ds := by
  have hbody := digitRun_of_digits? (digits?_map_digitChar hne h)
  have hliteral : Literal ([] ++ ([] ++ ds.map Nat.digitChar ++ [])) false ds :=
    .mk nofun .absent hbody nofun
  rwa [List.nil_append, List.nil_append, List.append_nil] at hliteral

/-- An integer is read exactly from the literals that stand for it and have few enough digits. -/
theorem read?_eq_some_iff {s : List Char} {n : Int} :
    read? s = some n ↔ IsInteger maxDigits s n := by
  unfold read? IsInteger
  simp only [literal_iff]
  generalize splitSign (trim isBlank s) = parts
  obtain ⟨negative, body⟩ := parts
  constructor
  · intro h
    obtain ⟨ds, hds, h⟩ := Option.bind_eq_some_iff.1 h
    split at h
    · next hfew =>
      cases h
      exact ⟨negative, ds, ⟨body, rfl, hds⟩, hfew, rfl⟩
    · cases h
  · rintro ⟨_, ds, ⟨_, ⟨⟩, hds⟩, hfew, rfl⟩
    simp only [hds, Option.bind_eq_bind, Option.bind_some, if_pos hfew]
    rfl

end Numeral

end ContractCoverage.Text
