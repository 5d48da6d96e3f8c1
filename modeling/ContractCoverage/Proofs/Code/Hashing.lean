import ContractCoverage.Proofs.Code.Addresses
import ContractCoverage.Proofs.Code.Pieces

/-! The hash of a code against the bytes of its listing.

A listing is made of a text without the margins around it, but its hash is taken of the
text as it was given, margins and all. Both fill in the placeholders, and none is found in
one and not in the other when the text can be read (`link_eq_of_decode`). So the two have
the same bytes when everything in the margins is skipped between bytes and none of it
stands in front of the mark of hexadecimal (`KeepsBytes`). Otherwise the text cannot be
read with its margins, and a code that has been disassembled has no hash (`hash_eq_iff`).
All of this holds whatever the function is that takes the hash of the bytes. -/
namespace ContractCoverage

open Text

namespace Placeholder

/-- A placeholder is known by its own characters. -/
theorem opens_take {s : List Char} (h : opens s = true) : opens (s.take width) = true := by
  unfold opens at h
  split at h
  · next rest =>
    have htake : ('_' :: '_' :: rest).take width = '_' :: '_' :: rest.take (width - 2) := rfl
    rw [htake, opens, List.take_take, Nat.min_self]
    exact h
  · cases h

/-- When no underscore is left of a text, what stands behind it is linked by itself. -/
theorem link_append_of_not_mem {s : List Char} (h : '_' ∉ link s) (t : List Char) :
    link (s ++ t) = link s ++ link t := by
  fun_induction link s with
  | case1 => rfl
  | case2 c rest hopens ih =>
    obtain ⟨-, hrest⟩ := not_or.1 (mt List.mem_append.2 h)
    have hlength : ((c :: rest).take width).length = width :=
      List.length_take_of_le (length_of_opens hopens)
    have hsplit : (c :: rest) ++ t = (c :: rest).take width ++ (rest.drop (width - 1) ++ t) := by
      rw [← List.append_assoc]
      exact congrArg (· ++ t) (List.take_append_drop width (c :: rest)).symm
    rw [hsplit, link_append hlength (opens_take hopens), ih hrest, List.append_assoc]
  | case3 c rest hopens ih =>
    have hc := List.ne_of_not_mem_cons h
    have hrest := List.not_mem_of_not_mem_cons h
    rw [List.cons_append, link_cons (Ne.symm hc), ih hrest, List.cons_append]

end Placeholder

/-! ### The mark of hexadecimal -/

namespace Bytecode

/-- Whether a text begins with the mark of hexadecimal. -/
def isMarked : List Char → Bool
  | '0' :: 'x' :: _ => true
  | _ => false

theorem dropMark_of_not_isMarked {s : List Char} (h : isMarked s = false) : dropMark s = s := by
  refine dropMark_of_unmarked fun rest heq => ?_
  rw [heq] at h
  cases h

/-- A marked text has a character in it that is neither a digit nor white space. -/
theorem mem_of_isMarked {s : List Char} (h : isMarked s = true) : 'x' ∈ s := by
  unfold isMarked at h
  split at h
  · exact List.mem_cons_of_mem _ (List.mem_cons_self ..)
  · cases h

/-- A character that is neither part of a placeholder nor of an address has been there before. -/
theorem exists_of_link {s rest : List Char} {c : Char} (h : Placeholder.link s = c :: rest)
    (ha : c ≠ 'a') (hunderscore : c ≠ '_') :
    ∃ before, s = c :: before ∧ rest = Placeholder.link before := by
  cases s with
  | nil =>
    rw [Placeholder.link] at h
    cases h
  | cons d s =>
    rw [Placeholder.link] at h
    split at h
    · exact absurd (List.cons.inj h).1.symm ha
    · obtain ⟨rfl, rfl⟩ := List.cons.inj h
      exact ⟨s, rfl, rfl⟩

/-- The mark stays in its place when placeholders are filled in. -/
theorem isMarked_link (s : List Char) : isMarked (Placeholder.link s) = isMarked s := by
  refine Bool.eq_iff_iff.2 ⟨fun h => ?_, fun h => ?_⟩
  · unfold isMarked at h
    split at h
    · next heq =>
      obtain ⟨before, rfl, hrest⟩ := exists_of_link heq (by decide) (by decide)
      obtain ⟨before, rfl, -⟩ := exists_of_link hrest.symm (by decide) (by decide)
      rfl
    · cases h
  · unfold isMarked at h
    split at h
    · rw [Placeholder.link_cons (by decide), Placeholder.link_cons (by decide)]
      rfl
    · cases h

/-! ### Texts with their margins -/

/-- A text has the bytes that it has without its margins: everything in them is skipped between
bytes, and none of it stands in front of a mark. -/
structure KeepsBytes (s : List Char) : Prop where
  leading : ∀ c ∈ s.takeWhile isMargin, Hex.isGap c = true
  trailing : ∀ c ∈ Text.trailing isMargin s, Hex.isGap c = true
  mark : s.takeWhile isMargin = [] ∨ isMarked (trim isMargin s) = false

theorem of_mem_leading {s : List Char} {c : Char} (h : c ∈ s.takeWhile isMargin) :
    isMargin c = true := List.all_eq_true.1 List.all_takeWhile c h

/-- A margin is skipped by one who reads it, or makes a text unreadable. -/
theorem isGap_of_reads {s : List Char} {bytes : List UInt8} (h : Hex.Reads s bytes) {c : Char}
    (hc : c ∈ s) (hmargin : isMargin c = true) : Hex.isGap c = true := by
  rcases h.forall_mem c hc with hgap | hdigit
  · exact hgap
  · rw [Hex.isMargin_of_isDigit hdigit] at hmargin
    cases hmargin

theorem not_mem_link_of_reads {s : List Char} {bytes : List UInt8}
    (h : Hex.Reads (dropMark (Placeholder.link s)) bytes) : '_' ∉ Placeholder.link s := by
  intro hmem
  rcases h.forall_mem _ (mem_dropMark hmem (by decide) (by decide)) with hgap | hdigit
  · cases hgap
  · cases hdigit

section
variable {s : List Char} {bytes : List UInt8} (h : decode s = .ok bytes)
include h

/-- Placeholders are filled in within the margins. -/
theorem link_eq_of_decode : Placeholder.link s = s.takeWhile isMargin ++
    (Placeholder.link (trim isMargin s) ++ Text.trailing isMargin s) := by
  have hunderscore : ∀ {t : List Char}, (∀ c ∈ t, isMargin c = true) → '_' ∉ t := by
    intro t ht hmem
    cases ht _ hmem
  have hleading := hunderscore fun c => @of_mem_leading s c
  have htrailing := hunderscore fun c => @of_mem_trailing isMargin s c
  have hlink := Placeholder.link_of_not_mem hleading
  have hnone := not_mem_link_of_reads (decode_eq_ok_iff.1 h)
  conv_lhs => rw [← takeWhile_trim_trailing isMargin s]
  rw [Placeholder.link_append_of_not_mem (by rwa [hlink]), hlink,
    Placeholder.link_append_of_not_mem hnone, Placeholder.link_of_not_mem htrailing]

/-- Without a margin in front the mark is taken off as it is without margins. -/
theorem dropMark_of_unled (hled : s.takeWhile isMargin = []) :
    dropMark (Placeholder.link s) =
      dropMark (Placeholder.link (trim isMargin s)) ++ Text.trailing isMargin s := by
  have hfirst : ∀ {c rest}, Text.trailing isMargin s = c :: rest → isMargin c = true :=
    fun heq => of_mem_trailing (heq ▸ List.mem_cons_self ..)
  rw [link_eq_of_decode h, hled, List.nil_append]
  refine dropMark_append _ (fun rest heq => ?_) fun rest heq => ?_
  · cases hfirst heq
  · cases hfirst heq

/-- Behind a margin no mark is taken off. -/
theorem dropMark_of_led (hled : s.takeWhile isMargin ≠ []) :
    dropMark (Placeholder.link s) = s.takeWhile isMargin ++
      (Placeholder.link (trim isMargin s) ++ Text.trailing isMargin s) := by
  rw [link_eq_of_decode h]
  obtain ⟨c, rest, hrest⟩ := List.exists_cons_of_ne_nil hled
  have hc : isMargin c = true := of_mem_leading (hrest ▸ List.mem_cons_self ..)
  refine dropMark_of_unmarked fun more heq => ?_
  rw [hrest, List.cons_append] at heq
  rw [(List.cons.inj heq).1] at hc
  cases hc

theorem reads_of_keepsBytes (hk : KeepsBytes s) :
    Hex.Reads (dropMark (Placeholder.link s)) bytes := by
  have hreads := decode_eq_ok_iff.1 h
  have htrailing := Hex.reads_of_gaps hk.trailing
  by_cases hled : s.takeWhile isMargin = []
  · rw [dropMark_of_unled h hled, ← List.append_nil bytes]
    exact hreads.append htrailing
  · have hmark := (isMarked_link _).trans (hk.mark.resolve_left hled)
    rw [dropMark_of_not_isMarked hmark] at hreads
    rw [dropMark_of_led h hled, ← List.append_nil bytes]
    exact (Hex.reads_of_gaps hk.leading).append (hreads.append htrailing)

theorem keepsBytes_of_reads {more : List UInt8}
    (hmore : Hex.Reads (dropMark (Placeholder.link s)) more) : KeepsBytes s := by
  by_cases hled : s.takeWhile isMargin = []
  · rw [dropMark_of_unled h hled] at hmore
    exact
      { leading := by simp [hled]
        trailing := fun c hc =>
          isGap_of_reads hmore (List.mem_append_right _ hc) (of_mem_trailing hc)
        mark := .inl hled }
  · rw [dropMark_of_led h hled] at hmore
    exact
      { leading := fun c hc => isGap_of_reads hmore (List.mem_append_left _ hc) (of_mem_leading hc)
        trailing := fun c hc => isGap_of_reads hmore
          (List.mem_append_right _ (List.mem_append_right _ hc)) (of_mem_trailing hc)
        mark := by
          refine .inr (Bool.eq_false_iff.2 fun hmark => ?_)
          have hx := mem_of_isMarked ((isMarked_link _).trans hmark)
          rcases hmore.forall_mem 'x' (List.mem_append_right _ (List.mem_append_left _ hx)) with
            hgap | hdigit
          · cases hgap
          · cases hdigit }

theorem hashText_of_keepsBytes (keccak : List UInt8 → List UInt8) (hk : KeepsBytes s) :
    hashText (Placeholder.link s) keccak = "0x" ++ Hex.encodeText (keccak bytes) := by
  rw [hashText, Hex.decode_eq_ok_iff.2 (reads_of_keepsBytes h hk)]

theorem hashText_of_not_keepsBytes (keccak : List UInt8 → List UInt8) (hk : ¬ KeepsBytes s) :
    hashText (Placeholder.link s) keccak = "" := by
  rw [hashText]
  split
  · next hmore => exact absurd (keepsBytes_of_reads h (Hex.decode_eq_ok_iff.1 hmore)) hk
  · rfl

end

end Bytecode

/-! ### Listings -/

namespace Listing

theorem append_ne_empty (text : String) : "0x" ++ text ≠ "" := by
  intro h
  have hlist := congrArg String.toList h
  rw [String.toList_append] at hlist
  cases hlist

/-- **The hash of a code is that of the bytes of its listing,** laid end to end as its instructions
cover them, exactly when the text of the code has the same bytes with its margins as without them.
Otherwise it is empty. -/
theorem hash_eq_iff {code map : List Char} {l : Listing} (h : ofText code map = .ok l)
    (keccak : List UInt8 → List UInt8) :
    ∃ bytes, Bytecode.decode code = .ok bytes ∧
      l.entries.map (·.instruction) = Instruction.walk bytes ∧
      l.entries.flatMap (·.instruction.bytes) = bytes ∧
      (l.hash keccak = "0x" ++ Hex.encodeText (keccak bytes) ↔ Bytecode.KeepsBytes code) ∧
      (l.hash keccak = "" ↔ ¬ Bytecode.KeepsBytes code) := by
  obtain ⟨ranges, bytes, -, hbytes, rfl⟩ := ofText_eq_ok_iff.1 h
  have hwalk := map_instruction_pair (Instruction.walk bytes) ranges
  have hcover : (pair (Instruction.walk bytes) ranges).flatMap (·.instruction.bytes) = bytes :=
    calc (pair (Instruction.walk bytes) ranges).flatMap (·.instruction.bytes)
      _ = ((pair (Instruction.walk bytes) ranges).map (·.instruction)).flatMap
            Instruction.bytes := (List.flatMap_map ..).symm
      _ = bytes := by rw [hwalk, Instruction.flatMap_bytes_walk]
  refine ⟨bytes, hbytes, hwalk, hcover, ?_⟩
  have hne := append_ne_empty (Hex.encodeText (keccak bytes))
  show (Bytecode.hashText (Placeholder.link code) keccak = _ ↔ _) ∧
    (Bytecode.hashText (Placeholder.link code) keccak = _ ↔ _)
  by_cases hk : Bytecode.KeepsBytes code
  · rw [Bytecode.hashText_of_keepsBytes hbytes keccak hk]
    exact ⟨iff_of_true rfl hk, iff_of_false hne (not_not_intro hk)⟩
  · rw [Bytecode.hashText_of_not_keepsBytes hbytes keccak hk]
    exact ⟨iff_of_false hne.symm hk, iff_of_true rfl hk⟩

/-- A code in margins that are skipped, without a mark behind them. -/
theorem hash_eq_iff_spaced : ∃ l, ofText " 60 01\n".toList [] = .ok l ∧
    l.entries.flatMap (·.instruction.bytes) = [0x60, 0x01] ∧
    l.hash = "0x" ++ Hex.encodeText (Keccak.hash [0x60, 0x01]) := by
  have hbytes : Bytecode.decode " 60 01\n".toList = .ok [0x60, 0x01] := by decide +kernel
  have h : ofText " 60 01\n".toList [] = .ok (.ofBytes " 60 01\n".toList [0x60, 0x01] []) := by
    rw [ofText, readTexts, hbytes]
    rfl
  have hkeeps : Bytecode.KeepsBytes " 60 01\n".toList :=
    { leading := List.all_eq_true.1 (by decide)
      trailing := List.all_eq_true.1 (by decide)
      mark := .inr (by decide) }
  obtain ⟨bytes, hsame, -, hcover, hhash, -⟩ := hash_eq_iff h Keccak.hash
  obtain rfl := Except.ok.inj (hbytes.symm.trans hsame)
  exact ⟨_, h, hcover, hhash.2 hkeeps⟩

/-- The same code in a text that has a blank in front of the mark: there is a listing of it, and no
hash. -/
theorem not_hash_blankBeforeMark : ∃ l, ofText " 0x6001".toList [] = .ok l ∧
    l.entries.flatMap (·.instruction.bytes) = [0x60, 0x01] ∧
    l.hash ≠ "0x" ++ Hex.encodeText (Keccak.hash [0x60, 0x01]) ∧ l.hash = "" := by
  have hbytes : Bytecode.decode " 0x6001".toList = .ok [0x60, 0x01] := by decide +kernel
  have h : ofText " 0x6001".toList [] = .ok (.ofBytes " 0x6001".toList [0x60, 0x01] []) := by
    rw [ofText, readTexts, hbytes]
    rfl
  have hlost : ¬ Bytecode.KeepsBytes " 0x6001".toList := by
    intro hk
    rcases hk.mark with hmark | hmark <;> cases hmark
  have hcover : (pair (Instruction.walk [0x60, 0x01]) []).flatMap (·.instruction.bytes) =
      [0x60, 0x01] := by decide +kernel
  have hempty : (ofBytes " 0x6001".toList [0x60, 0x01] []).hash = "" :=
    Bytecode.hashText_of_not_keepsBytes hbytes Keccak.hash hlost
  refine ⟨_, h, hcover, ?_, hempty⟩
  rw [hempty]
  exact (append_ne_empty _).symm

end Listing

end ContractCoverage
