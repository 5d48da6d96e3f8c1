import ContractCoverage.Code.Bytecode
import ContractCoverage.Proofs.Data.Chain
import ContractCoverage.Proofs.Text.Bytes
import ContractCoverage.Proofs.Text.Margins
import Mathlib.Data.List.Induction

/-! Bytecode texts in pieces: what stands between link placeholders, and the placeholders.

Linking puts an address in the place of every placeholder. A text that can be read
without being linked can be read with the address that stands for all of them
(`decode_prelinked`), and where code that can be read comes before a placeholder, one
address may stand in the place of another: the bytes of the address change and no other
(`decode_window`). -/
namespace ContractCoverage

open Text

/-! ### Taking off the mark -/

namespace Bytecode

theorem dropMark_of_unmarked {s : List Char} (h : ∀ rest, s ≠ '0' :: 'x' :: rest) :
    dropMark s = s := by
  unfold dropMark
  split
  · next rest => exact absurd rfl (h rest)
  · rfl

/-- A mark lies in the first of two texts when it does not reach into the second. -/
theorem dropMark_append (s : List Char) {t : List Char} (hx : ∀ rest, t ≠ 'x' :: rest)
    (h : ∀ rest, t ≠ '0' :: 'x' :: rest) : dropMark (s ++ t) = dropMark s ++ t := by
  match s with
  | [] => exact dropMark_of_unmarked h
  | [c] =>
    have hsingle : dropMark [c] = [c] := dropMark_of_unmarked fun rest heq => by cases heq
    rw [hsingle]
    refine dropMark_of_unmarked fun rest heq => ?_
    exact hx rest (List.cons.inj heq).2
  | c :: d :: s =>
    by_cases hmark : c = '0' ∧ d = 'x'
    · obtain ⟨rfl, rfl⟩ := hmark
      rfl
    · have hunmarked : ∀ u rest, c :: d :: u ≠ '0' :: 'x' :: rest := by
        intro u rest heq
        simp only [List.cons.injEq] at heq
        exact hmark ⟨heq.1, heq.2.1⟩
      rw [dropMark_of_unmarked (hunmarked s)]
      exact dropMark_of_unmarked (hunmarked (s ++ t))

/-- Apart from the two of the mark a text keeps its characters. -/
theorem mem_dropMark {s : List Char} {c : Char} (h : c ∈ s) (hzero : c ≠ '0') (hx : c ≠ 'x') :
    c ∈ dropMark s := by
  unfold dropMark
  split
  · simpa [hzero, hx] using h
  · exact h

end Bytecode

/-! ### Placeholders in a text -/

namespace Placeholder

theorem link_of_not_mem {s : List Char} (h : '_' ∉ s) : link s = s := by
  induction s with
  | nil => rw [link]
  | cons c s ih =>
    have hc := List.ne_of_not_mem_cons h
    have hopens : opens (c :: s) = false := by
      unfold opens
      split
      · next heq => exact absurd (List.cons.inj heq).1.symm hc
      · rfl
    rw [link, if_neg (by simp [hopens]), ih (List.not_mem_of_not_mem_cons h)]

/-- A character of its own stays in its place. -/
theorem link_cons {c : Char} (h : c ≠ '_') (s : List Char) : link (c :: s) = c :: link s := by
  have hopens : opens (c :: s) = false := by
    unfold opens
    split
    · next heq => exact absurd (List.cons.inj heq).1 h
    · rfl
  rw [link, if_neg (by simp [hopens])]

/-- What is too short for a placeholder keeps its first character. -/
theorem link_cons_of_short {c : Char} {s : List Char} (h : (c :: s).length < width) :
    link (c :: s) = c :: link s := by
  have hopens : opens (c :: s) = false := by
    refine Bool.eq_false_iff.2 fun hopens => ?_
    have hlength := length_of_opens hopens
    omega
  rw [link, if_neg (by simp [hopens])]

/-- A placeholder gives way to the address for placeholders. -/
theorem link_append {placeholder : List Char} (hlength : placeholder.length = width)
    (hopens : opens placeholder = true) (s : List Char) :
    link (placeholder ++ s) = dummyAddress ++ link s := by
  unfold opens at hopens
  split at hopens
  · next rest =>
    have hrest : rest.length = width - 2 := by
      simp only [List.length_cons] at hlength
      omega
    have htake : (rest ++ s).take (width - 2) = rest.take (width - 2) := by
      rw [List.take_append_of_le_length (Nat.le_of_eq hrest.symm)]
    have hwhole : opens ('_' :: '_' :: (rest ++ s)) = true := by
      simp only [opens, htake]
      exact hopens
    have hdrop : ('_' :: (rest ++ s)).drop (width - 1) = s := by
      show (rest ++ s).drop (width - 2) = s
      rw [← hrest, List.drop_left]
    show link ('_' :: '_' :: (rest ++ s)) = _
    rw [link, if_pos hwhole, hdrop]
  · cases hopens

end Placeholder

/-! ### Pieces -/

/-- Whether a text is an address. -/
def IsAddress (s : List Char) : Prop :=
  s.length = Placeholder.width ∧ ∀ c ∈ s, Hex.isDigit c = true

/-- A placeholder, and the address that takes its place. -/
structure Link where
  placeholder : List Char
  address : List Char
  length_placeholder : placeholder.length = Placeholder.width
  opens_placeholder : Placeholder.opens placeholder = true
  isAddress : IsAddress address

/-- A piece of a bytecode text: a character outside placeholders, or a placeholder to be linked. -/
inductive Piece where
  | plain (c : Char) (h : c ≠ '_')
  | link (l : Link)

namespace Piece

/-- A piece as text, with something in the place of a placeholder. -/
def text (fill : Link → List Char) : Piece → List Char
  | plain c _ => [c]
  | link l => fill l

/-- Pieces as text before they are linked. -/
def unlinked (ps : List Piece) : List Char := ps.flatMap (text Link.placeholder)

/-- Pieces as text after they have been linked. -/
def linked (ps : List Piece) : List Char := ps.flatMap (text Link.address)

/-- Pieces as text with the address for placeholders. -/
def prelinked (ps : List Piece) : List Char := ps.flatMap (text fun _ => Placeholder.dummyAddress)

theorem unlinked_append (ps qs : List Piece) : unlinked (ps ++ qs) = unlinked ps ++ unlinked qs :=
  List.flatMap_append

theorem prelinked_append (ps qs : List Piece) :
    prelinked (ps ++ qs) = prelinked ps ++ prelinked qs := List.flatMap_append

end Piece

namespace IsAddress

/-- A digit, repeated often enough, is an address. -/
theorem replicate {c : Char} (h : Hex.isDigit c = true) :
    IsAddress (List.replicate Placeholder.width c) :=
  ⟨List.length_replicate, fun _ hc => List.eq_of_mem_replicate hc ▸ h⟩

theorem dummyAddress : IsAddress Placeholder.dummyAddress := replicate rfl

variable {a : List Char} (h : IsAddress a)
include h

theorem not_mem : '_' ∉ a := fun hmem => by
  have hdigit := h.2 _ hmem
  cases hdigit

theorem isMargin_eq_false : ∀ c ∈ a, isMargin c = false := fun c hc =>
  Hex.isMargin_of_isDigit (h.2 c hc)

/-- An address is not taken for the mark of hexadecimal in front of what follows it, nor for a part
of it. -/
theorem unmarked (s : List Char) :
    (∀ rest, a ++ s ≠ 'x' :: rest) ∧ ∀ rest, a ++ s ≠ '0' :: 'x' :: rest := by
  have hx : 'x' ∉ a := fun hmem => by
    have hdigit := h.2 _ hmem
    cases hdigit
  have hlength := h.1
  match a with
  | [] => cases hlength
  | [c] => cases hlength
  | c :: d :: a =>
    simp only [List.mem_cons, not_or] at hx
    constructor
    · intro rest heq
      exact hx.1 (List.cons.inj heq).1.symm
    · intro rest heq
      exact hx.2.1 (List.cons.inj (List.cons.inj heq).2).1.symm

/-- An address is read as twenty bytes. -/
theorem exists_reads : ∃ bytes, Hex.Reads a bytes ∧ bytes.length = 20 :=
  Hex.reads_of_digits h.2 h.1

end IsAddress

/-! ### Reading an unlinked text -/

namespace Piece

theorem not_mem_prelinked (ps : List Piece) : '_' ∉ prelinked ps := by
  intro h
  obtain ⟨p, -, hp⟩ := List.mem_flatMap.1 h
  cases p with
  | plain c hc => exact hc (List.mem_singleton.1 hp).symm
  | link l => exact IsAddress.dummyAddress.not_mem hp

theorem not_mem_linked (ps : List Piece) : '_' ∉ linked ps := by
  intro h
  obtain ⟨p, -, hp⟩ := List.mem_flatMap.1 h
  cases p with
  | plain c hc => exact hc (List.mem_singleton.1 hp).symm
  | link l => exact l.isAddress.not_mem hp

/-- Placeholders are found where they are, also with other text behind the pieces. -/
theorem link_unlinked (ps : List Piece) (s : List Char) :
    Placeholder.link (unlinked ps ++ s) = prelinked ps ++ Placeholder.link s := by
  induction ps with
  | nil => rfl
  | cons p ps ih =>
    cases p with
    | plain c hc => exact (Placeholder.link_cons hc _).trans (congrArg _ ih)
    | link l =>
      show Placeholder.link ((l.placeholder ++ unlinked ps) ++ s) =
        (Placeholder.dummyAddress ++ prelinked ps) ++ Placeholder.link s
      rw [List.append_assoc, Placeholder.link_append l.length_placeholder l.opens_placeholder, ih,
        List.append_assoc]

theorem exists_placeholder (l : Link) : ∃ rest, l.placeholder = '_' :: rest := by
  have hopens := l.opens_placeholder
  unfold Placeholder.opens at hopens
  split at hopens
  · next rest heq => exact ⟨_, heq⟩
  · cases hopens

/-- Whether a piece is white space that may stand around a bytecode text. -/
def isMargin : Piece → Bool
  | plain c _ => Text.isMargin c
  | link _ => false

theorem dropWhile_flatMap {fill : Link → List Char}
    (h : ∀ l, ∃ c rest, fill l = c :: rest ∧ Text.isMargin c = false) (ps : List Piece) :
    (ps.flatMap (text fill)).dropWhile Text.isMargin =
      (ps.dropWhile isMargin).flatMap (text fill) := by
  induction ps with
  | nil => rfl
  | cons p ps ih =>
    cases p with
    | plain c hc =>
      show (c :: ps.flatMap (text fill)).dropWhile Text.isMargin = _
      cases hm : Text.isMargin c with
      | true =>
        rw [List.dropWhile_cons_of_pos hm, List.dropWhile_cons_of_pos (by exact hm), ih]
      | false =>
        rw [List.dropWhile_cons_of_neg (by simp [hm]),
          List.dropWhile_cons_of_neg (by simp [isMargin, hm])]
        rfl
    | link l =>
      obtain ⟨c, rest, hfill, hc⟩ := h l
      have hhead : ∀ c' ∈ (fill l ++ ps.flatMap (text fill)).head?, Text.isMargin c' = false := by
        rw [hfill]
        intro c' hc'
        cases hc'
        exact hc
      have hdrop := dropWhile_append_of_head [] hhead
      rw [List.dropWhile_cons_of_neg (by simp [isMargin])]
      exact hdrop

theorem dropWhile_unlinked (ps : List Piece) :
    (unlinked ps).dropWhile Text.isMargin = unlinked (ps.dropWhile isMargin) := by
  refine dropWhile_flatMap (fun l => ?_) ps
  obtain ⟨rest, hrest⟩ := exists_placeholder l
  exact ⟨'_', rest, hrest, rfl⟩

theorem dropWhile_prelinked (ps : List Piece) :
    (prelinked ps).dropWhile Text.isMargin = prelinked (ps.dropWhile isMargin) :=
  dropWhile_flatMap (fun _ => ⟨'a', _, rfl, rfl⟩) ps

theorem last_of_address {a : List Char} (h : IsAddress a) (s : List Char) :
    ∀ c ∈ (s ++ a).getLast?, Text.isMargin c = false := by
  intro c hc
  cases ha : a.getLast? with
  | none =>
    rw [List.getLast?_eq_none_iff.1 ha] at h
    cases h.1
  | some last =>
    rw [List.getLast?_append, ha] at hc
    cases hc
    exact h.isMargin_eq_false _ (List.mem_of_getLast? ha)

/-- When the end of a placeholder is taken off, nothing is, or it is not found any more. -/
theorem trimEnd_placeholder (l : Link) (s : List Char) :
    ∃ kept, trimEnd Text.isMargin (s ++ l.placeholder) = s ++ kept ∧
      (Placeholder.link kept = Placeholder.dummyAddress ∨ '_' ∈ Placeholder.link kept) := by
  obtain ⟨rest, hrest⟩ := exists_placeholder l
  have hlast : ∀ c ∈ (s ++ ['_']).getLast?, Text.isMargin c = false := by
    rw [List.getLast?_concat]
    intro c hc
    cases hc
    rfl
  refine ⟨'_' :: trimEnd Text.isMargin rest, ?_, ?_⟩
  · have happend := trimEnd_append_of_last hlast rest
    rwa [List.append_assoc, List.append_assoc, List.singleton_append, List.singleton_append,
      ← hrest] at happend
  · obtain ⟨margin, hmargin, -⟩ := exists_of_trimEnd Text.isMargin rest
    cases margin with
    | nil =>
      have hlink := Placeholder.link_append l.length_placeholder l.opens_placeholder []
      rw [List.append_nil, hrest] at hlink
      rw [List.append_nil] at hmargin
      left
      rw [← hmargin, hlink, Placeholder.link, List.append_nil]
    | cons c margin =>
      have hshort : ('_' :: trimEnd Text.isMargin rest).length < Placeholder.width := by
        have hlength := l.length_placeholder
        rw [hrest, hmargin] at hlength
        simp only [List.length_cons, List.length_append] at hlength ⊢
        omega
      right
      rw [Placeholder.link_cons_of_short hshort]
      exact List.mem_cons_self ..

/-- The end of a text may be taken off before it is linked, except that a placeholder which is cut
by that is not found. -/
theorem link_trimEnd (ps : List Piece) :
    Placeholder.link (trimEnd Text.isMargin (unlinked ps)) =
        trimEnd Text.isMargin (prelinked ps) ∨
      '_' ∈ Placeholder.link (trimEnd Text.isMargin (unlinked ps)) := by
  induction ps using List.reverseRecOn with
  | nil => exact .inl (by simp [unlinked, prelinked, trimEnd, Placeholder.link])
  | append_singleton ps p ih =>
    rw [unlinked_append, prelinked_append]
    cases p with
    | plain c hc =>
      show Placeholder.link (trimEnd Text.isMargin (unlinked ps ++ [c])) =
          trimEnd Text.isMargin (prelinked ps ++ [c]) ∨
        '_' ∈ Placeholder.link (trimEnd Text.isMargin (unlinked ps ++ [c]))
      cases hm : Text.isMargin c with
      | true =>
        rw [trimEnd_concat_of_pos hm, trimEnd_concat_of_pos hm]
        exact ih
      | false =>
        rw [trimEnd_concat_of_neg hm, trimEnd_concat_of_neg hm, link_unlinked,
          Placeholder.link_of_not_mem (by simpa using hc.symm)]
        exact .inl rfl
    | link l =>
      have hfill : unlinked [.link l] = l.placeholder := List.append_nil _
      have hdummy : prelinked [.link l] = Placeholder.dummyAddress := List.append_nil _
      obtain ⟨kept, hkept, hlink⟩ := trimEnd_placeholder l (unlinked ps)
      rw [hfill, hdummy, hkept, link_unlinked,
        trimEnd_of_last (last_of_address IsAddress.dummyAddress _)]
      rcases hlink with hfound | hcut
      · exact .inl (by rw [hfound])
      · exact .inr (List.mem_append_right _ hcut)

end Piece

namespace Bytecode

/-- A bytecode text that can be read. -/
theorem decode_eq_ok_iff {s : List Char} {bytes : List UInt8} : decode s = .ok bytes ↔
    Hex.Reads (dropMark (Placeholder.link (trim isMargin s))) bytes := by
  rw [decode, mapError_eq_ok_iff, Hex.decode_eq_ok_iff]

theorem decode_eq_ok_iff_of_not_mem {s : List Char} (h : '_' ∉ s) {bytes : List UInt8} :
    decode s = .ok bytes ↔ Hex.Reads (dropMark (trim isMargin s)) bytes := by
  rw [decode_eq_ok_iff, Placeholder.link_of_not_mem fun hmem => h (mem_of_mem_trim hmem)]

/-- What can be read without being linked can be read with the address for placeholders. -/
theorem decode_prelinked {ps : List Piece} {bytes : List UInt8}
    (h : decode (Piece.unlinked ps) = .ok bytes) : decode (Piece.prelinked ps) = .ok bytes := by
  have hreads := decode_eq_ok_iff.1 h
  rw [trim_eq, Piece.dropWhile_unlinked] at hreads
  rw [decode_eq_ok_iff_of_not_mem (Piece.not_mem_prelinked ps), trim_eq, Piece.dropWhile_prelinked]
  rcases Piece.link_trimEnd (ps.dropWhile Piece.isMargin) with hsame | hcut
  · rwa [← hsame]
  · have hmem := mem_dropMark hcut (by decide) (by decide)
    rcases hreads.forall_mem _ hmem with hgap | hdigit
    · cases hgap
    · cases hdigit

/-! ### One address in the place of another -/

/-- What is left of a text with an address in it, when its margins and its mark are taken off. -/
theorem dropMark_trim_window {a : List Char} (ha : IsAddress a) (s t : List Char) :
    dropMark (trim isMargin (s ++ (a ++ t))) =
      dropMark (s.dropWhile isMargin) ++ (a ++ trimEnd isMargin t) := by
  have hhead : ∀ c ∈ (a ++ t).head?, isMargin c = false := by
    intro c hc
    cases a with
    | nil => cases ha.1
    | cons first a =>
      cases hc
      exact ha.isMargin_eq_false _ (List.mem_cons_self ..)
  have htrim : trim isMargin (s ++ (a ++ t)) =
      s.dropWhile isMargin ++ (a ++ trimEnd isMargin t) := by
    rw [trim_eq, dropWhile_append_of_head s hhead, ← List.append_assoc,
      trimEnd_append_of_last (Piece.last_of_address ha _), List.append_assoc]
  obtain ⟨hx, hmark⟩ := ha.unmarked (trimEnd isMargin t)
  rw [htrim, dropMark_append _ hx hmark]

/-- Code that can be read is read the same way in front of what can be read, and the margin at its
end as nothing. -/
theorem reads_window {s t : List Char} {head all : List UInt8} (hs : '_' ∉ s)
    (hhead : decode s = .ok head)
    (hall : Hex.Reads (dropMark (s.dropWhile isMargin) ++ t) all) :
    Hex.Reads (dropMark (s.dropWhile isMargin)) head := by
  have hreads := (decode_eq_ok_iff_of_not_mem hs).1 hhead
  obtain ⟨margin, hmargin, hmargins⟩ := exists_of_trimEnd isMargin (s.dropWhile isMargin)
  have hsum : dropMark (s.dropWhile isMargin) =
      dropMark (trimEnd isMargin (s.dropWhile isMargin)) ++ margin := by
    have hne : ∀ c rest, margin = c :: rest → isMargin c = true := fun c rest heq =>
      hmargins c (heq ▸ List.mem_cons_self ..)
    conv_lhs => rw [hmargin]
    refine dropMark_append _ (fun rest heq => ?_) fun rest heq => ?_
    · cases hne _ _ heq
    · cases hne _ _ heq
  have hgaps : ∀ c ∈ margin, Hex.isGap c = true := by
    intro c hc
    have hmem : c ∈ dropMark (s.dropWhile isMargin) ++ t := by
      rw [hsum]
      exact List.mem_append_left _ (List.mem_append_right _ hc)
    rcases hall.forall_mem c hmem with hgap | hdigit
    · exact hgap
    · have hnone := Hex.isMargin_of_isDigit hdigit
      rw [hmargins c hc] at hnone
      cases hnone
  have happend := hreads.append (Hex.reads_of_gaps hgaps)
  rw [List.append_nil] at happend
  rw [hsum]
  exact happend

/-- **One address in the place of another.** Where code that can be read comes before an address,
another address changes the bytes of the address, and no others. -/
theorem decode_window {a s t : List Char} (ha : IsAddress a) (hs : '_' ∉ s) (ht : '_' ∉ t)
    {head all : List UInt8} (hhead : decode s = .ok head)
    (hall : decode (s ++ (a ++ t)) = .ok all) :
    ∃ operand tail, operand.length = 20 ∧ all = head ++ (operand ++ tail) ∧
      ∀ b, IsAddress b → ∃ operand', operand'.length = 20 ∧ Hex.Reads b operand' ∧
        decode (s ++ (b ++ t)) = .ok (head ++ (operand' ++ tail)) := by
  have hnone : ∀ b, IsAddress b → '_' ∉ s ++ (b ++ t) := fun b hb hmem => by
    rcases List.mem_append.1 hmem with hmem | hmem
    · exact hs hmem
    · rcases List.mem_append.1 hmem with hmem | hmem
      · exact hb.not_mem hmem
      · exact ht hmem
  rw [decode_eq_ok_iff_of_not_mem (hnone a ha), dropMark_trim_window ha] at hall
  have hfirst := reads_window hs hhead hall
  obtain ⟨more, rfl, hmore⟩ := hfirst.rest hall
  obtain ⟨operand, hoperand, hlength⟩ := ha.exists_reads
  obtain ⟨tail, rfl, htail⟩ := hoperand.rest hmore
  refine ⟨operand, tail, hlength, rfl, fun b hb => ?_⟩
  obtain ⟨operand', hoperand', hlength'⟩ := hb.exists_reads
  refine ⟨operand', hlength', hoperand', ?_⟩
  rw [decode_eq_ok_iff_of_not_mem (hnone b hb), dropMark_trim_window hb]
  exact hfirst.append (hoperand'.append htail)

end Bytecode

end ContractCoverage
