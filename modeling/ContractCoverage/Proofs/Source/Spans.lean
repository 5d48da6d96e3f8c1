import ContractCoverage.Proofs.Data.Chain
import ContractCoverage.Proofs.Source.Positions

/-! The places of ranges.

A location is made of the bytes before it, so more bytes lead to no earlier location, with
a line more for every line break among them. From this the places of ranges are ordered:
a range does not end before its start, it touches one line more than it has line breaks,
and a range inside of another one has its place inside of the other's (`place_exact`).

A range is refused when it lacks a number or has an end outside of the text. The fault
names numbers, and as with offsets it is another one when a number is too long to be named
(`not_position_farStart`). -/
namespace ContractCoverage

/-! ### The order of locations -/

/-- By line, and in one line by column. -/
instance : LE Location :=
  ⟨fun a b => a.line < b.line ∨ a.line = b.line ∧ a.column ≤ b.column⟩

theorem Location.le_iff {a b : Location} :
    a ≤ b ↔ a.line < b.line ∨ a.line = b.line ∧ a.column ≤ b.column := Iff.rfl

theorem Location.line_le {a b : Location} (h : a ≤ b) : a.line ≤ b.line := by
  rcases h with hline | ⟨hline, -⟩
  · exact Int.le_of_lt hline
  · exact Int.le_of_eq hline

/-- The lines of a place inside of another one are among its lines. -/
theorem Span.lines_subset {outer inner : Span} (hstart : outer.start ≤ inner.start)
    (hstop : inner.stop ≤ outer.stop) : inner.lines ⊆ outer.lines := by
  intro n hn
  obtain ⟨hfrom, hupTo⟩ := mem_lines.1 hn
  exact mem_lines.2 ⟨Int.le_trans (Location.line_le hstart) hfrom,
    Int.le_trans hupTo (Location.line_le hstop)⟩

/-! ### Locations behind bytes -/

/-- Bytes without a line break stay in their line. -/
theorem sinceBreak_append {bytes more : List UInt8} (h : newline ∉ more) :
    sinceBreak (bytes ++ more) = sinceBreak bytes + more.length := by
  induction more using List.reverseRecOn with
  | nil => rw [List.append_nil, List.length_nil, Nat.add_zero]
  | append_singleton more last ih =>
    rw [List.mem_append, List.mem_singleton, not_or] at h
    have hlast : (last != newline) = true := bne_iff_ne.2 (Ne.symm h.2)
    have hmore := ih h.1
    rw [sinceBreak] at hmore
    rw [sinceBreak, ← List.append_assoc, List.rtakeWhile_concat, if_pos hlast, List.length_append,
      hmore, List.length_append, Nat.add_assoc]

namespace Location

/-- The location behind the first bytes of a text. -/
def behind (bytes : List UInt8) : Location := ⟨bytes.count newline + 1, sinceBreak bytes⟩

/-- More bytes do not lead back. -/
theorem behind_le (bytes more : List UInt8) : behind bytes ≤ behind (bytes ++ more) := by
  simp only [le_iff, behind, List.count_append]
  by_cases h : newline ∈ more
  · have hbreaks := List.count_pos_iff.2 h
    left
    omega
  · rw [List.count_eq_zero.2 h, sinceBreak_append h]
    right
    omega

/-- A later offset has no earlier location. -/
theorem behind_take_le {bytes : List UInt8} {m n : Nat} (h : m ≤ n) :
    behind (bytes.take m) ≤ behind (bytes.take n) := by
  rw [← Nat.add_sub_cancel' h, List.take_add]
  exact behind_le _ _

end Location

/-- The lines from one offset on to another: one more than there are line breaks between them. -/
theorem Span.lines_behind (bytes : List UInt8) (start length : Nat) :
    (Span.mk (.behind (bytes.take start)) (.behind (bytes.take (start + length)))).lines =
      (List.range (((bytes.drop start).take length).count newline + 1)).map
        fun k : Nat => (Location.behind (bytes.take start)).line + k := by
  simp only [lines, Location.behind, List.take_add, List.count_append]
  congr 2
  omega

/-! ### Ranges in a text -/

namespace Range

/-- A range has both its numbers, and its two ends lie in a text of that size. -/
def Fits (r : Range) (size : Nat) : Prop :=
  ∃ offset length, r.offset = some offset ∧ r.length = some length ∧
    (0 ≤ offset ∧ offset ≤ size) ∧ 0 ≤ offset + length ∧ offset + length ≤ size

/-- A range starts no later and ends no earlier than another one, and neither has a negative
length. -/
def Contains (outer inner : Range) : Prop :=
  ∃ offset length offset' length', outer.offset = some offset ∧ outer.length = some length ∧
    inner.offset = some offset' ∧ inner.length = some length' ∧ 0 ≤ length ∧ 0 ≤ length' ∧
      offset ≤ offset' ∧ offset' + length' ≤ offset + length

/-- Why a range has no place in a text of that size: it lacks a number, or one of its ends lies
outside, where the first is looked at first. -/
def misfit (r : Range) (size : Nat) : PositionFault :=
  match r.offset, r.length with
  | some offset, some length =>
    .outside (if 0 ≤ offset ∧ offset ≤ size then offset + length else offset) size
  | _, _ => .incomplete r

/-- The ends of a range that lies in a text are offsets of it. -/
theorem Fits.exists_ends {r : Range} {size : Nat} (h : r.Fits size) :
    ∃ start stop : Nat, r.offset = some (start : Int) ∧ r.length = some ((stop : Int) - start) ∧
      start ≤ size ∧ stop ≤ size := by
  obtain ⟨offset, length, hoffset, hlength, hstart, hstop⟩ := h
  refine ⟨offset.toNat, (offset + length).toNat, ?_, ?_, by omega, by omega⟩
  · rw [hoffset, Int.toNat_of_nonneg hstart.1]
  · rw [hlength, Int.toNat_of_nonneg hstart.1, Int.toNat_of_nonneg hstop.1]
    congr 1
    omega

end Range

namespace LineTable
open Text.Numeral

/-- The place of a range; a range that has none is named in the fault. -/
def place (t : LineTable) (r : Range) : Except Fault Span := liftM (t.resolveRange r)

/-- The place of a range with both its numbers has the locations of its ends. -/
theorem place_eq (t : LineTable) {r : Range} {offset length : Int}
    (hoffset : r.offset = some offset)
    (hlength : r.length = some length) :
    t.place r = t.locate offset >>= fun start => t.locate (offset + length) >>= fun stop =>
      .ok ⟨start, stop⟩ := by
  simp only [place, resolveRange, hoffset, hlength, locate]
  cases t.resolve offset with
  | error fault => rfl
  | ok start => cases t.resolve (offset + length) <;> rfl

theorem place_of_ends {bytes : List UInt8} {r : Range} {start stop : Nat}
    (hoffset : r.offset = some (start : Int)) (hlength : r.length = some ((stop : Int) - start))
    (hstart : start ≤ bytes.length) (hstop : stop ≤ bytes.length) :
    (ofBytes bytes).place r =
      .ok ⟨.behind (bytes.take start), .behind (bytes.take stop)⟩ := by
  rw [place_eq _ hoffset hlength, locate_inside hstart, ok_bind,
    show (start : Int) + (stop - start) = stop by omega, locate_inside hstop]
  rfl

/-- A range that does not lie in a text is refused, and the fault says why. -/
theorem place_of_not_fits {bytes : List UInt8} {r : Range} (h : ¬ r.Fits bytes.length) :
    (ofBytes bytes).place r = .error (.ofPosition (r.misfit bytes.length)) := by
  cases hoffset : r.offset with
  | none => simp only [place, resolveRange, Range.misfit, hoffset]; rfl
  | some offset =>
    cases hlength : r.length with
    | none => simp only [place, resolveRange, Range.misfit, hoffset, hlength]; rfl
    | some length =>
      rw [place_eq _ hoffset hlength]
      simp only [Range.misfit, hoffset, hlength]
      by_cases hstart : 0 ≤ offset ∧ offset ≤ bytes.length
      · have hstop : offset + length < 0 ∨ bytes.length < offset + length := by
          by_contra hin
          exact h ⟨offset, length, hoffset, hlength, hstart, by omega⟩
        obtain ⟨n, rfl⟩ := Int.eq_ofNat_of_zero_le hstart.1
        rw [locate_inside (by omega), ok_bind, locate_outside hstop, if_pos hstart]
        rfl
      · rw [locate_outside (by omega), if_neg hstart]
        rfl

theorem exists_place_iff {bytes : List UInt8} {r : Range} :
    (∃ span, (ofBytes bytes).place r = .ok span) ↔ r.Fits bytes.length := by
  by_cases h : r.Fits bytes.length
  · obtain ⟨start, stop, hoffset, hlength, hstart, hstop⟩ := h.exists_ends
    exact iff_of_true ⟨_, place_of_ends hoffset hlength hstart hstop⟩ h
  · rw [place_of_not_fits h]
    exact iff_of_false (fun ⟨_, hspan⟩ => by cases hspan) h

/-- A range is refused as such when it does not lie in the text and the fault can be written. -/
theorem exists_placeFault_iff {bytes : List UInt8} {r : Range} :
    (∃ fault, (ofBytes bytes).place r = .error (.position fault)) ↔
      ¬ r.Fits bytes.length ∧ ∀ n ∈ (r.misfit bytes.length).numerals, isWritable n = true := by
  by_cases h : r.Fits bytes.length
  · obtain ⟨span, hspan⟩ := exists_place_iff.2 h
    rw [hspan]
    exact iff_of_false (fun ⟨_, hfault⟩ => by cases hfault) fun hboth => hboth.1 h
  · rw [place_of_not_fits h, exists_ofPosition_iff]
    exact (and_iff_right h).symm

/-- A table gives the places of ranges in a text of certain bytes. -/
structure PlacesExactly (bytes : List UInt8) (t : LineTable) : Prop where
  /-- A range is refused when it lacks a number or has an end outside of the text. -/
  refused : ∀ r : Range, (∃ fault, t.place r = .error fault) ↔ ¬ r.Fits bytes.length
  /-- It is refused as such, unless a number that the fault names is too long. -/
  position : ∀ r : Range, (∃ fault, t.place r = .error (.position fault)) ↔
    ¬ r.Fits bytes.length ∧ ∀ n ∈ (r.misfit bytes.length).numerals, isWritable n = true
  /-- Any other range that has no negative length ends where it starts or later. Its lines follow
  each other, one more than there are line breaks among its bytes. -/
  ordered : ∀ (r : Range) (offset length : Nat), r.offset = some (offset : Int) →
    r.length = some (length : Int) → r.Fits bytes.length →
    ∃ span, t.place r = .ok span ∧ span.start ≤ span.stop ∧
      span.lines = (List.range (((bytes.drop offset).take length).count newline + 1)).map
        fun k : Nat => span.start.line + k
  /-- A range inside of another one has its place and its lines inside of the other's. -/
  nested : ∀ (outer inner : Range) (span span' : Span), outer.Contains inner →
    t.place outer = .ok span → t.place inner = .ok span' →
    span.start ≤ span'.start ∧ span'.stop ≤ span.stop ∧ span'.lines ⊆ span.lines

/-- **The places of ranges are exact and nest.** -/
theorem place_exact (bytes : List UInt8) : PlacesExactly bytes (ofBytes bytes) := by
  refine ⟨fun r => ?_, fun r => exists_placeFault_iff, ?_, ?_⟩
  · rw [← exists_place_iff]
    cases (ofBytes bytes).place r with
    | error fault => exact iff_of_true ⟨fault, rfl⟩ fun ⟨_, h⟩ => by cases h
    | ok span => exact iff_of_false (fun ⟨_, h⟩ => by cases h) fun h => h ⟨span, rfl⟩
  · intro r offset length hoffset hlength hfits
    obtain ⟨start, stop, hstart, hstop, hle, hle'⟩ := hfits.exists_ends
    obtain rfl : offset = start := by
      rw [hoffset, Option.some.injEq] at hstart
      omega
    obtain rfl : stop = offset + length := by
      rw [hlength, Option.some.injEq] at hstop
      omega
    exact ⟨_, place_of_ends hstart hstop hle hle',
      Location.behind_take_le (Nat.le_add_right offset length), Span.lines_behind ..⟩
  · intro outer inner span span' hcontains hspan hspan'
    obtain ⟨offset, length, offset', length', ho, hl, ho', hl', -, -, hfirst, hlast⟩ := hcontains
    obtain ⟨start, stop, hstart, hstop, hle, hle'⟩ := (exists_place_iff.1 ⟨span, hspan⟩).exists_ends
    obtain ⟨start', stop', hstart', hstop', hin, hin'⟩ :=
      (exists_place_iff.1 ⟨span', hspan'⟩).exists_ends
    rw [place_of_ends hstart hstop hle hle'] at hspan
    rw [place_of_ends hstart' hstop' hin hin'] at hspan'
    cases hspan
    cases hspan'
    rw [ho, Option.some.injEq] at hstart
    rw [ho', Option.some.injEq] at hstart'
    rw [hl, Option.some.injEq] at hstop
    rw [hl', Option.some.injEq] at hstop'
    have hstarts := @Location.behind_take_le bytes _ _ (by omega : start ≤ start')
    have hstops := @Location.behind_take_le bytes _ _ (by omega : stop' ≤ stop)
    exact ⟨hstarts, hstops, Span.lines_subset hstarts hstops⟩

/-- A range of which the start has too many digits. -/
def farStart : Range := { offset := some writingBound, length := some 0 }

/-- A range that starts too far away to be named has no place in the empty text, and the fault does
not say so. -/
theorem not_position_farStart :
    ¬∀ r : Range, (∃ fault, (ofBytes []).place r = .error (.position fault)) ↔ ¬ r.Fits 0 := by
  intro h
  have hpos := writingBound_pos
  have hfar : ¬ farStart.Fits 0 := by
    rintro ⟨offset, length, hoffset, -, ⟨-, hinside⟩, -⟩
    obtain rfl : (writingBound : Int) = offset := Option.some.inj hoffset
    omega
  have hnamed : (writingBound : Int) ∈ (farStart.misfit 0).numerals := by
    have houtside : ¬ (0 ≤ (writingBound : Int) ∧ (writingBound : Int) ≤ (0 : Nat)) := by omega
    simp only [Range.misfit, farStart, if_neg houtside]
    exact List.mem_cons_self ..
  have hwritable := (exists_placeFault_iff.1 ((h farStart).2 hfar)).2 _ hnamed
  rw [not_isWritable_writingBound] at hwritable
  cases hwritable

end LineTable

end ContractCoverage
