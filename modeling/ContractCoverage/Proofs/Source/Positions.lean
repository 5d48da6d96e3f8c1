import ContractCoverage.Fault
import ContractCoverage.Source.LineTable
import Mathlib.Algebra.GroupWithZero.Nat
import Mathlib.Data.List.DropRight

/-! Positions in a text.

An offset lies behind some line breaks and some bytes of its own line. These two numbers are read
off the bytes before the offset, and they fit the lengths of the lines (`lands_ofBytes`): the lines
before and the bytes of the line add up to the offset, and there are fewer of these than the line
has, unless the text ends there. So the lines that start at or before the offset are the first ones
up to its own (`filter_lineStarts`), which is what a location is made of (`locate_exact`).

An offset outside of the text is refused. It is put into the words of the fault, so one of more than
`Numeral.maxDigits` digits is refused for being too long (`not_outside_tooLong`). -/
namespace ContractCoverage

/-! ### Bytes since the last line break -/

/-- The number of bytes behind the last line break. -/
def sinceBreak (bytes : List UInt8) : Nat := (bytes.rtakeWhile (· != newline)).length

theorem sinceBreak_of_not_mem {bytes : List UInt8} (h : newline ∉ bytes) :
    sinceBreak bytes = bytes.length := by
  have hall : ∀ b ∈ bytes, (b != newline) = true := by
    intro b hb
    exact bne_iff_ne.2 fun heq => h (heq ▸ hb)
  rw [sinceBreak, List.rtakeWhile_eq_self_iff.2 hall]

/-- What stands before a line break does not count. -/
theorem sinceBreak_cons {b : UInt8} {bytes : List UInt8} (h : newline ∈ b :: bytes) :
    sinceBreak (b :: bytes) = sinceBreak bytes := by
  induction bytes using List.reverseRecOn with
  | nil =>
    obtain rfl := List.mem_singleton.1 h
    rfl
  | append_singleton bytes last ih =>
    rw [sinceBreak, sinceBreak, ← List.cons_append, List.rtakeWhile_concat, List.rtakeWhile_concat]
    by_cases hlast : last = newline
    · simp [hlast]
    · have hbefore : newline ∈ b :: bytes := by
        rw [← List.cons_append, List.mem_append, List.mem_singleton] at h
        exact h.resolve_right (Ne.symm hlast)
      have hsame := ih hbefore
      rw [sinceBreak, sinceBreak] at hsame
      simp [hlast, hsame]

/-! ### Where an offset lies among lines -/

/-- An offset lies behind some lines and some bytes of the next one. It may lie behind all bytes of
the last line. -/
structure Lands (lengths : List Nat) (offset line column : Nat) : Prop where
  sum : (lengths.take line).sum + column = offset
  fits : ∃ length, lengths[line]? = some length ∧
    (column < length ∨ column = length ∧ line + 1 = lengths.length)

theorem Lands.cons {lengths : List Nat} {offset line column : Nat}
    (h : Lands lengths offset line column) (length : Nat) :
    Lands (length :: lengths) (length + offset) (line + 1) column := by
  obtain ⟨hsum, own, hown, hfits⟩ := h
  refine ⟨?_, own, hown, ?_⟩
  · rw [List.take_succ_cons, List.sum_cons]
    omega
  · rw [List.length_cons]
    omega

/-- A byte more in the first line, behind which the offset lies. -/
theorem Lands.grow {first : Nat} {rest : List Nat} {offset line column : Nat}
    (h : Lands (first :: rest) offset (line + 1) column) :
    Lands ((first + 1) :: rest) (offset + 1) (line + 1) column := by
  obtain ⟨hsum, own, hown, hfits⟩ := h
  rw [List.take_succ_cons, List.sum_cons] at hsum
  refine ⟨?_, own, hown, hfits⟩
  rw [List.take_succ_cons, List.sum_cons]
  omega

/-- A byte more before the offset in its own line, which is the first. -/
theorem Lands.shift {first : Nat} {rest : List Nat} {offset column : Nat}
    (h : Lands (first :: rest) offset 0 column) :
    Lands ((first + 1) :: rest) (offset + 1) 0 (column + 1) := by
  obtain ⟨hsum, own, hown, hfits⟩ := h
  obtain rfl : first = own := Option.some.inj hown
  rw [List.take_zero, List.sum_nil] at hsum
  rw [List.length_cons] at hfits
  refine ⟨?_, first + 1, rfl, ?_⟩
  · rw [List.take_zero, List.sum_nil]
    omega
  · rw [List.length_cons]
    omega

/-- The line breaks before an offset, and the bytes since the last of them, say where it lies. -/
theorem lands_ofBytes {bytes : List UInt8} {offset : Nat} (h : offset ≤ bytes.length) :
    Lands (lineLengths bytes) offset ((bytes.take offset).count newline)
      (sinceBreak (bytes.take offset)) := by
  induction bytes generalizing offset with
  | nil =>
    obtain rfl := Nat.le_zero.1 h
    exact ⟨rfl, 0, rfl, .inr ⟨rfl, rfl⟩⟩
  | cons b bytes ih =>
    cases hlines : lineLengths bytes with
    | nil => exact absurd hlines (lineLengths_ne_nil bytes)
    | cons first rest =>
      cases offset with
      | zero =>
        rw [lineLengths, hlines]
        dsimp only
        split
        · exact ⟨rfl, 1, rfl, .inl Nat.one_pos⟩
        · exact ⟨rfl, first + 1, rfl, .inl (Nat.succ_pos first)⟩
      | succ offset =>
        have hrest := ih (Nat.le_of_succ_le_succ h)
        rw [hlines] at hrest
        rw [lineLengths, hlines, List.take_succ_cons]
        dsimp only
        by_cases hb : b = newline
        · subst hb
          rw [if_pos rfl, List.count_cons_self, sinceBreak_cons (List.mem_cons_self ..),
            Nat.add_comm offset]
          exact hrest.cons 1
        · rw [if_neg hb, List.count_cons_of_ne hb]
          cases hcount : (bytes.take offset).count newline with
          | zero =>
            have hnone : newline ∉ b :: bytes.take offset :=
              List.not_mem_cons_of_ne_of_not_mem (Ne.symm hb) (List.count_eq_zero.1 hcount)
            rw [hcount, sinceBreak_of_not_mem (List.count_eq_zero.1 hcount)] at hrest
            rw [sinceBreak_of_not_mem hnone]
            exact hrest.shift
          | succ line =>
            have hmem : newline ∈ bytes.take offset := List.count_pos_iff.1 (by omega)
            rw [hcount] at hrest
            rw [sinceBreak_cons (List.mem_cons_of_mem b hmem)]
            exact hrest.grow

/-! ### The lines that start before an offset -/

theorem le_of_mem_lineStarts {start : Nat} {lengths : List Nat} :
    ∀ s ∈ lineStarts start lengths, start ≤ s := by
  induction lengths generalizing start with
  | nil => exact nofun
  | cons length lengths ih =>
    refine List.forall_mem_cons.2 ⟨Nat.le_refl start, fun s hs => ?_⟩
    exact Nat.le_trans (Nat.le_add_right start length) (ih s hs)

/-- The lines that start at or before an offset are those up to its own. -/
theorem filter_lineStarts {lengths : List Nat} {offset line column : Nat}
    (h : Lands lengths offset line column) (start : Nat) :
    (lineStarts start lengths).filter (fun s => s ≤ start + offset) =
      (lineStarts start lengths).take (line + 1) := by
  induction lengths generalizing start offset line with
  | nil =>
    obtain ⟨-, own, hown, -⟩ := h
    cases hown
  | cons first rest ih =>
    rw [lineStarts, List.filter_cons_of_pos (by simp), List.take_succ_cons]
    congr 1
    cases line with
    | zero =>
      obtain ⟨hsum, own, hown, hfits⟩ := h
      obtain rfl : first = own := Option.some.inj hown
      rw [List.take_zero, List.sum_nil] at hsum
      rw [List.length_cons] at hfits
      rw [List.take_zero, List.filter_eq_nil_iff]
      intro s hs
      have hle := le_of_mem_lineStarts s hs
      have hrest : 0 < rest.length := by
        rw [← length_lineStarts (start + first) rest]
        exact List.length_pos_of_mem hs
      simp only [decide_eq_true_eq]
      omega
    | succ line =>
      obtain ⟨hsum, own, hown, hfits⟩ := h
      rw [List.take_succ_cons, List.sum_cons] at hsum
      rw [List.length_cons] at hfits
      have hlands : Lands rest (offset - first) line column :=
        ⟨by omega, own, hown, by omega⟩
      have hsame := ih hlands (start + first)
      rw [show start + first + (offset - first) = start + offset by omega] at hsame
      exact hsame

/-- A line starts where the lines before it end. -/
theorem getLastD_take_lineStarts {lengths : List Nat} {line length : Nat}
    (h : lengths[line]? = some length) (start other : Nat) :
    ((lineStarts start lengths).take (line + 1)).getLastD other =
      start + (lengths.take line).sum := by
  induction lengths generalizing line start other with
  | nil => cases h
  | cons first rest ih =>
    rw [lineStarts, List.take_succ_cons, List.getLastD_cons]
    cases line with
    | zero => rfl
    | succ line =>
      rw [ih h, List.take_succ_cons, List.sum_cons]
      omega

namespace LineTable

/-- An offset is located by where it lies among the lines. -/
theorem resolve_of_lands {bytes : List UInt8} {offset line column : Nat}
    (hsize : offset ≤ bytes.length) (h : Lands (lineLengths bytes) offset line column) :
    (ofBytes bytes).resolve offset = .ok ⟨line + 1, column⟩ := by
  have hstarted : (ofBytes bytes).starts.filter (fun s : Nat => (s : Int) ≤ offset) =
      (lineStarts 0 (lineLengths bytes)).take (line + 1) := by
    rw [← filter_lineStarts h 0]
    refine List.filter_congr fun s _ => ?_
    simp
  obtain ⟨hsum, own, hown, -⟩ := h
  have hlength : ((lineStarts 0 (lineLengths bytes)).take (line + 1)).length = line + 1 := by
    rw [List.length_take, length_lineStarts]
    have hline := (List.getElem?_eq_some_iff.1 hown).1
    omega
  have hinside : ¬((offset : Int) < 0 ∨ ((ofBytes bytes).size : Int) < offset) := by
    show ¬((offset : Int) < 0 ∨ (bytes.length : Int) < offset)
    omega
  rw [resolve, if_neg hinside]
  simp only [hstarted, hlength, getLastD_take_lineStarts hown]
  congr 2
  omega

end LineTable

/-! ### The lengths of the lines -/

theorem sum_lineLengths (bytes : List UInt8) : (lineLengths bytes).sum = bytes.length := by
  rw [List.sum_eq_foldr, foldr_lineLengths]

/-- The end of the last line is the end of the text. -/
theorem Lands.eq_size {bytes : List UInt8} {offset line column : Nat}
    (h : Lands (lineLengths bytes) offset line column)
    (hlength : (lineLengths bytes)[line]? = some column)
    (hlast : line + 1 = (lineLengths bytes).length) : offset = bytes.length := by
  obtain ⟨hline, hcolumn⟩ := List.getElem?_eq_some_iff.1 hlength
  have htake : (lineLengths bytes).take line ++ [column] = lineLengths bytes := by
    rw [← hcolumn, ← List.take_succ_eq_append_getElem hline, hlast, List.take_length]
  have hsum := congrArg List.sum htake
  rw [List.sum_append, List.sum_singleton, h.sum, sum_lineLengths] at hsum
  exact hsum

/-- The lengths of lines that follow each other, when the text ends at `size`: what the line has,
with one more for its line break, but no more than what is left of the text. -/
def lengthsUpTo (size start : Int) : List (List UInt8) → List Int
  | [] => []
  | line :: lines =>
    min (line.length + 1) (size - start) :: lengthsUpTo size (start + line.length + 1) lines

/-- Only the last line has no line break. -/
theorem lengthsUpTo_splitOn (bytes : List UInt8) (start : Int) :
    lengthsUpTo (start + bytes.length) start (bytes.splitOn newline) =
      (lineLengths bytes).map fun n : Nat => (n : Int) := by
  induction bytes generalizing start with
  | nil =>
    show [min ((0 : Nat) + 1 : Int) (start + (0 : Nat) - start)] = [((0 : Nat) : Int)]
    congr 1
    omega
  | cons b bytes ih =>
    have hsize : start + ((b :: bytes).length : Int) = start + 1 + bytes.length := by
      rw [List.length_cons]
      omega
    have hrest := ih (start + 1)
    rw [List.splitOn, List.splitOnP_cons_eq_if_modifyHead, hsize, lineLengths]
    rw [List.splitOn] at hrest
    cases hlines : lineLengths bytes with
    | nil => exact absurd hlines (lineLengths_ne_nil bytes)
    | cons first rest =>
      rw [hlines] at hrest
      by_cases hb : b = newline
      · have hfirst : min ((([] : List UInt8).length : Int) + 1)
            (start + 1 + bytes.length - start) = ((1 : Nat) : Int) := by
          rw [List.length_nil]
          omega
        have hstart : start + (([] : List UInt8).length : Int) + 1 = start + 1 := by
          rw [List.length_nil]
          omega
        rw [if_pos (by simpa using hb), lengthsUpTo, hfirst, hstart, hrest]
        simp only [hb, if_true, List.map_cons]
      · rw [if_neg (by simpa using hb)]
        simp only [hb, if_false, List.map_cons]
        cases hsplit : bytes.splitOnP (· == newline) with
        | nil => exact absurd hsplit (List.splitOnP_ne_nil _ _)
        | cons line lines =>
          rw [hsplit, lengthsUpTo, List.map_cons, List.cons.injEq] at hrest
          obtain ⟨hfirst, hothers⟩ := hrest
          rw [List.modifyHead_cons, lengthsUpTo, List.length_cons, ← hothers]
          congr 1
          · omega
          · congr 1
            omega

/-- No line has a negative length. -/
theorem nonneg_lengthsUpTo (bytes : List UInt8) :
    ∀ length ∈ lengthsUpTo bytes.length 0 (bytes.splitOn newline), 0 ≤ length := by
  have hlengths := lengthsUpTo_splitOn bytes 0
  rw [Int.zero_add] at hlengths
  intro length hlength
  rw [hlengths] at hlength
  obtain ⟨n, -, rfl⟩ := List.mem_map.1 hlength
  exact Int.natCast_nonneg n

/-! ### Offsets inside and outside -/

namespace LineTable
open Text.Numeral

/-- The location of an offset; an offset that has none is named in the fault. -/
def locate (t : LineTable) (offset : Int) : Except Fault Location := liftM (t.resolve offset)

theorem locate_outside {bytes : List UInt8} {offset : Int}
    (h : offset < 0 ∨ bytes.length < offset) :
    (ofBytes bytes).locate offset = .error (.ofPosition (.outside offset bytes.length)) := by
  have hresolve : (ofBytes bytes).resolve offset = .error (.outside offset bytes.length) := if_pos h
  rw [locate, hresolve]
  rfl

theorem locate_inside {bytes : List UInt8} {offset : Nat} (h : offset ≤ bytes.length) :
    (ofBytes bytes).locate offset = .ok
      ⟨(bytes.take offset).count newline + 1, sinceBreak (bytes.take offset)⟩ := by
  rw [locate, resolve_of_lands h (lands_ofBytes h)]
  rfl

/-- A position is refused as such when the numbers that the fault names can be written. -/
theorem exists_ofPosition_iff {α : Type} {why : PositionFault} :
    (∃ fault, (.error (.ofPosition why) : Except Fault α) = .error (.position fault)) ↔
      ∀ n ∈ why.numerals, isWritable n = true := by
  rw [← List.all_eq_true, Fault.ofPosition]
  cases why.numerals.all isWritable with
  | true => exact iff_of_true ⟨why, rfl⟩ rfl
  | false => exact iff_of_false (fun ⟨_, h⟩ => by cases h) Bool.false_ne_true

/-- An offset is refused as outside of the text when it is, and the words of the fault can be
written. -/
theorem exists_position_iff (bytes : List UInt8) (offset : Int) :
    (∃ fault, (ofBytes bytes).locate offset = .error (.position fault)) ↔
      (offset < 0 ∨ bytes.length < offset) ∧ isWritable offset = true ∧
        isWritable bytes.length = true := by
  by_cases h : offset < 0 ∨ bytes.length < offset
  · rw [locate_outside h, exists_ofPosition_iff, and_iff_right h]
    simp [PositionFault.numerals]
  · have hinside : ∃ n : Nat, offset = n ∧ n ≤ bytes.length := ⟨offset.toNat, by omega, by omega⟩
    obtain ⟨n, rfl, hn⟩ := hinside
    rw [locate_inside hn]
    simp only [reduceCtorEq, exists_false, h, false_and]

/-- A table gives the positions in a text of certain bytes. -/
structure Exact (bytes : List UInt8) (t : LineTable) : Prop where
  /-- An offset is refused when it lies outside of the text. -/
  refused : ∀ offset : Int, (∃ fault, t.locate offset = .error fault) ↔
    offset < 0 ∨ bytes.length < offset
  /-- It is refused as such, unless the words of the fault are too long. -/
  outside : ∀ offset : Int, (∃ fault, t.locate offset = .error (.position fault)) ↔
    (offset < 0 ∨ bytes.length < offset) ∧ isWritable offset = true ∧
      isWritable bytes.length = true
  /-- Any other offset lies behind the line breaks before it and the bytes since the last of them.
  The lines before and the column add up to the offset, and the column is below the length of its
  line unless the text ends there. -/
  located : ∀ offset : Nat, offset ≤ bytes.length → ∃ line column : Nat,
    t.locate offset = .ok ⟨line + 1, column⟩ ∧
      line = (bytes.take offset).count newline ∧ column = sinceBreak (bytes.take offset) ∧
      (t.lengths.take line).sum + column = offset ∧
      ∃ length, t.lengths[line]? = some length ∧
        (column < length ∨
          column = length ∧ offset = bytes.length ∧ line + 1 = t.lengths.length)
  /-- The lengths are those of the pieces between the line breaks, each with its line break. -/
  lengths_eq : t.lengths.map (fun n : Nat => (n : Int)) =
    lengthsUpTo bytes.length 0 (bytes.splitOn newline)
  nonneg : ∀ length ∈ lengthsUpTo bytes.length 0 (bytes.splitOn newline), 0 ≤ length
  sum : t.lengths.sum = bytes.length

theorem exact_ofBytes (bytes : List UInt8) : Exact bytes (ofBytes bytes) := by
  refine ⟨fun offset => ⟨?_, fun h => ⟨_, locate_outside h⟩⟩, exists_position_iff bytes, ?_, ?_,
    nonneg_lengthsUpTo bytes, sum_lineLengths bytes⟩
  · intro ⟨fault, hfault⟩
    by_contra hinside
    obtain ⟨n, rfl⟩ := Int.eq_ofNat_of_zero_le (by omega : 0 ≤ offset)
    rw [locate_inside (by omega)] at hfault
    cases hfault
  · intro offset hoffset
    have hlands := lands_ofBytes hoffset
    obtain ⟨own, hown, hfits⟩ := hlands.fits
    refine ⟨_, _, locate_inside hoffset, rfl, rfl, hlands.sum, own, hown, ?_⟩
    rcases hfits with hless | ⟨rfl, hlast⟩
    · exact .inl hless
    · exact .inr ⟨rfl, hlands.eq_size hown hlast, hlast⟩
  · have hlengths := lengthsUpTo_splitOn bytes 0
    rw [Int.zero_add] at hlengths
    exact hlengths.symm

/-- **Positions are exact,** in bytes and in texts, which are taken in their UTF-8 bytes. -/
theorem locate_exact : (∀ bytes : List UInt8, Exact bytes (ofBytes bytes)) ∧
    ∀ text : String, Exact text.toUTF8.data.toList (ofText text) :=
  ⟨exact_ofBytes, fun text => exact_ofBytes text.toUTF8.data.toList⟩

/-- The least offset that is too long to be named lies outside of the empty text, and the fault does
not say so. -/
theorem not_outside_tooLong :
    ¬∀ offset : Int, (∃ fault, (ofBytes []).locate offset = .error (.position fault)) ↔
      offset < 0 ∨ (([] : List UInt8).length : Int) < offset := by
  intro h
  have houtside : (([] : List UInt8).length : Int) < writingBound := by
    have hpos := writingBound_pos
    rw [List.length_nil]
    omega
  have hwritable := ((exists_position_iff [] writingBound).1 ((h _).2 (.inr houtside))).2.1
  rw [not_isWritable_writingBound] at hwritable
  cases hwritable

end LineTable

end ContractCoverage
