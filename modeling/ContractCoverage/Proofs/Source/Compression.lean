import ContractCoverage.Proofs.Source.Entries
import ContractCoverage.Proofs.Text.Written
import ContractCoverage.Source.SourceMap

/-! Compressed source maps.

There are many ways to write a list of ranges as a source map: every field of an entry
may be written, left blank or cut off, each where the range allows it (`Abbreviates`).
Reading undoes any of them (`decode_of_stream`), by induction on the stream: an entry
gives its range after the range before, and the rest is read after that one.

The one limit is that of reading numbers. A number of more than `Numeral.maxDigits`
digits is refused although it is legally written (`Range.RefusesLong`), and with it the
whole map (`not_decode_tooLong`). -/
namespace ContractCoverage

open Text Numeral

namespace Range

/-! ### Legal fields -/

/-- A field for a number, written, or blank or missing where the number stays what it was. -/
def LegalNumber (before now : Option Int) : Option (List Char) → Prop
  | none | some [] => now = before
  | some field => ∃ n, now = some n ∧ Writes field n

/-- A field for a jump kind: its letter, blank where the kind stays what it was, or missing where
there is none. -/
def LegalJump (before now : JumpKind) : Option (List Char) → Prop
  | none => now = .unspecified
  | some [] => now = before
  | some field => ∃ letter, now.letter? = some letter ∧ field = [letter]

/-- A field for a modifier depth, which is missing where there is none. -/
def LegalDepth (before now : Option Int) : Option (List Char) → Prop
  | none => now = none
  | some field => LegalNumber before now (some field)

/-- Fields that a range may be written with after another one. -/
structure LegalFields (before now : Range) (fields : List (List Char)) : Prop where
  atMost : fields.length ≤ maxFields
  offset : LegalNumber before.offset now.offset fields[0]?
  length : LegalNumber before.length now.length fields[1]?
  fileId : LegalNumber before.fileId now.fileId fields[2]?
  jump : LegalJump before.jump now.jump fields[3]?
  depth : LegalDepth before.modifierDepth now.modifierDepth fields[4]?

/-- A text is a legal entry for a range after another one: nothing where they are equal, or fields
with colons between them. -/
inductive Abbreviates (before : Range) : Range → List Char → Prop
  | repeated : Abbreviates before before []
  | fields {now : Range} {fields : List (List Char)} (h : LegalFields before now fields)
      (hne : join ':' fields ≠ []) : Abbreviates before now (join ':' fields)

/-- A range of the sources: offset, length and file are known, and the first two not negative. -/
def IsSource (r : Range) : Prop :=
  (∃ offset, r.offset = some offset ∧ 0 ≤ offset) ∧
    (∃ length, r.length = some length ∧ 0 ≤ length) ∧
    ∃ fileId, r.fileId = some fileId

/-- No field of an entry has more digits than a number may be read from. -/
def IsReadable (entry : List Char) : Prop :=
  ∀ field ∈ split ':' entry, digitCount field ≤ maxDigits

/-! ### Separators -/

/-- The characters of a legal field. -/
def isFieldChar (c : Char) : Bool := c.isDigit || c == '-' || c == 'i' || c == 'o'

theorem legalNumber_of_writes (before : Option Int) {field : List Char} {n : Int}
    (h : Writes field n) : LegalNumber before (some n) (some field) := by
  cases field with
  | nil => exact absurd rfl h.ne_nil
  | cons first field => exact ⟨n, rfl, h⟩

theorem isFieldChar_of_number {before now : Option Int} {field : List Char}
    (h : LegalNumber before now (some field)) : ∀ c ∈ field, isFieldChar c = true := by
  cases field with
  | nil => exact fun c hc => absurd hc List.not_mem_nil
  | cons first field =>
    obtain ⟨n, -, hwrites⟩ := h
    intro c hc
    rcases hwrites.eq_or_isDigit c hc with rfl | hdigit
    · rfl
    · rw [isFieldChar, hdigit]
      rfl

theorem isFieldChar_of_jump {before now : JumpKind} {field : List Char}
    (h : LegalJump before now (some field)) : ∀ c ∈ field, isFieldChar c = true := by
  cases field with
  | nil => exact fun c hc => absurd hc List.not_mem_nil
  | cons first field =>
    obtain ⟨letter, hletter, heq⟩ := h
    rw [heq]
    intro c hc
    rw [List.mem_singleton.1 hc]
    cases now <;> cases hletter <;> rfl

/-- What the field in every place of an entry has, all its fields have. -/
theorem forall_fields {fields : List (List Char)} {P : List Char → Prop}
    (hmost : fields.length ≤ maxFields) (hoffset : ∀ field ∈ fields[0]?, P field)
    (hlength : ∀ field ∈ fields[1]?, P field) (hfile : ∀ field ∈ fields[2]?, P field)
    (hjump : ∀ field ∈ fields[3]?, P field) (hdepth : ∀ field ∈ fields[4]?, P field) :
    ∀ field ∈ fields, P field := by
  intro field hfield
  obtain ⟨place, hplace, heq⟩ := List.mem_iff_getElem.1 hfield
  have hget : fields[place]? = some field := by rw [List.getElem?_eq_getElem hplace, heq]
  have hfive : place < 5 := Nat.lt_of_lt_of_le hplace hmost
  match place with
  | 0 => exact hoffset field hget
  | 1 => exact hlength field hget
  | 2 => exact hfile field hget
  | 3 => exact hjump field hget
  | 4 => exact hdepth field hget
  | n + 5 => omega

theorem LegalFields.forall_isFieldChar {before now : Range} {fields : List (List Char)}
    (h : LegalFields before now fields) :
    ∀ field ∈ fields, ∀ c ∈ field, isFieldChar c = true :=
  forall_fields h.atMost (fun _ hget => isFieldChar_of_number (hget ▸ h.offset))
    (fun _ hget => isFieldChar_of_number (hget ▸ h.length))
    (fun _ hget => isFieldChar_of_number (hget ▸ h.fileId))
    (fun _ hget => isFieldChar_of_jump (hget ▸ h.jump))
    (fun _ hget => isFieldChar_of_number (hget ▸ h.depth))

theorem not_mem_of_isFieldChar {sep : Char} (hsep : isFieldChar sep = false)
    {field : List Char} (h : ∀ c ∈ field, isFieldChar c = true) : sep ∉ field := by
  intro hmem
  rw [h sep hmem] at hsep
  cases hsep

theorem LegalFields.split_join {before now : Range} {fields : List (List Char)}
    (h : LegalFields before now fields) (hne : join ':' fields ≠ []) :
    split ':' (join ':' fields) = fields := by
  refine Text.split_join (fun hnil => hne (by rw [hnil]; rfl)) fun field hfield => ?_
  exact not_mem_of_isFieldChar (by decide) (h.forall_isFieldChar field hfield)

theorem mem_join {sep c : Char} {fields : List (List Char)} (h : c ∈ join sep fields) :
    c = sep ∨ ∃ field ∈ fields, c ∈ field := by
  induction fields with
  | nil => cases h
  | cons field fields ih =>
    cases fields with
    | nil => exact .inr ⟨field, List.mem_singleton_self _, h⟩
    | cons next fields =>
      rcases List.mem_append.1 h with h | h
      · exact .inr ⟨field, List.mem_cons_self .., h⟩
      · rcases List.mem_cons.1 h with h | h
        · exact .inl h
        · rcases ih h with h | ⟨found, hfound, hc⟩
          · exact .inl h
          · exact .inr ⟨found, List.mem_cons_of_mem _ hfound, hc⟩

/-- An entry does not contain the character that ends it. -/
theorem Abbreviates.not_mem {before now : Range} {entry : List Char}
    (h : Abbreviates before now entry) : ';' ∉ entry := by
  cases h with
  | repeated => exact List.not_mem_nil
  | fields h _ =>
    intro hmem
    rcases mem_join hmem with hcolon | ⟨field, hfield, hc⟩
    · cases hcolon
    · exact not_mem_of_isFieldChar (by decide) (h.forall_isFieldChar field hfield) hc

/-! ### Reading an entry -/

/-- A reading is refused for a field of an entry that has too many digits. -/
def RefusesLong {α : Type} (entry : List Char) (reading : Except EntryFault α) : Prop :=
  ∃ field ∈ split ':' entry, maxDigits < digitCount field ∧
    reading = .error (.badField (String.ofList field) (String.ofList entry))

theorem RefusesLong.bind {α β : Type} {entry : List Char} {reading : Except EntryFault α}
    (h : RefusesLong entry reading) (next : α → Except EntryFault β) :
    RefusesLong entry (reading >>= next) := by
  obtain ⟨field, hfield, hlong, rfl⟩ := h
  exact ⟨field, hfield, hlong, rfl⟩

theorem RefusesLong.ne_ok {α : Type} {entry : List Char} {reading : Except EntryFault α}
    (h : RefusesLong entry reading) (a : α) : reading ≠ .ok a := by
  obtain ⟨field, -, -, rfl⟩ := h
  exact nofun

/-- What is only refused for a field of too many digits is read when there is none. -/
theorem IsReadable.eq_ok {α : Type} {entry : List Char} {reading : Except EntryFault α} {a : α}
    {short : Prop} (h : IsReadable entry)
    (hread : RefusesLong entry reading ∨ reading = .ok a ∧ short) : reading = .ok a := by
  rcases hread with hrefused | ⟨hok, -⟩
  · obtain ⟨field, hfield, hlong, -⟩ := hrefused
    exact absurd (h field hfield) (Nat.not_le.2 hlong)
  · exact hok

/-- A legal number is read, unless its field has too many digits. -/
theorem readNumber_of_legal {entry : List Char} {place : Nat} {before now : Option Int}
    (h : LegalNumber before now (split ':' entry)[place]?) :
    RefusesLong entry (readNumber entry place before) ∨
      readNumber entry place before = .ok now ∧
        ∀ field ∈ (split ':' entry)[place]?, digitCount field ≤ maxDigits := by
  unfold readNumber
  cases hget : (split ':' entry)[place]? with
  | none =>
    rw [hget] at h
    exact .inr ⟨congrArg _ h.symm, nofun⟩
  | some field =>
    rw [hget] at h
    cases field with
    | nil =>
      refine .inr ⟨congrArg _ h.symm, fun field hfield => ?_⟩
      rw [← Option.some.inj hfield]
      exact Nat.zero_le _
    | cons first field =>
      obtain ⟨n, rfl, hwrites⟩ := h
      simp only [read?_writes hwrites]
      by_cases hshort : digitCount (first :: field) ≤ maxDigits
      · refine .inr ⟨by rw [if_pos hshort], fun other hother => ?_⟩
        rwa [← Option.some.inj hother]
      · refine .inl ⟨_, List.mem_of_getElem? hget, Nat.not_le.1 hshort, ?_⟩
        rw [if_neg hshort]

theorem readJump_of_legal {entry : List Char} {before now : JumpKind}
    (h : LegalJump before now (split ':' entry)[3]?) : readJump entry before = .ok now := by
  unfold readJump
  cases hget : (split ':' entry)[3]? with
  | none =>
    rw [hget] at h
    exact congrArg _ h.symm
  | some field =>
    rw [hget] at h
    cases field with
    | nil => exact congrArg _ h.symm
    | cons first field =>
      obtain ⟨letter, hletter, heq⟩ := h
      simp only [heq, readJumpField, JumpKind.ofField?_letter hletter]

/-- A field for a jump kind has one character at most. -/
theorem digitCount_of_legalJump {before now : JumpKind} {field : List Char}
    (h : LegalJump before now (some field)) : digitCount field ≤ maxDigits := by
  have hlength : field.length ≤ 1 := by
    cases field with
    | nil => exact Nat.zero_le _
    | cons first field =>
      obtain ⟨letter, -, heq⟩ := h
      rw [heq]
      exact Nat.le_refl _
  exact Nat.le_trans (Nat.le_trans List.countP_le_length hlength) (by decide)

/-- A legal modifier depth is read, unless its field has too many digits. -/
theorem readDepth_of_legal {entry : List Char} {before now : Option Int}
    (h : LegalDepth before now (split ':' entry)[4]?) :
    RefusesLong entry (readDepth entry before) ∨
      readDepth entry before = .ok now ∧
        ∀ field ∈ (split ':' entry)[4]?, digitCount field ≤ maxDigits := by
  unfold readDepth
  cases hget : (split ':' entry)[4]? with
  | none =>
    rw [hget] at h
    rw [if_pos (List.getElem?_eq_none_iff.1 hget)]
    exact .inr ⟨congrArg _ h.symm, nofun⟩
  | some field =>
    obtain ⟨hlength, -⟩ := List.getElem?_eq_some_iff.1 hget
    rw [hget] at h
    rw [if_neg (Nat.not_le.2 hlength), ← hget]
    exact readNumber_of_legal (hget.symm ▸ h)

theorem not_isNegative {n : Option Int} (h : ∃ m, n = some m ∧ 0 ≤ m) : isNegative n = false := by
  obtain ⟨m, rfl, hm⟩ := h
  simpa [isNegative] using hm

theorem IsSource.isNatural {r : Range} (h : r.IsSource) : r.IsNatural := by
  obtain ⟨hoffset, hlength, -⟩ := h
  exact ⟨not_isNegative hoffset, not_isNegative hlength⟩

section Fields
variable {before now : Range} {fields : List (List Char)} (h : LegalFields before now fields)
  (hne : join ':' fields ≠ [])
include h hne

/-- Legal fields are read as their range, and as no other one. -/
theorem decodes_iff_of_legal {other : Range} (hread : IsReadable (join ':' fields)) :
    Decodes (join ':' fields) before other ↔ other = now ∧ other.IsNatural := by
  have hsplit := h.split_join hne
  obtain ⟨hmost, ho, hl, hf, hj, hd⟩ := h
  rw [← hsplit] at hmost ho hl hf hj hd
  have hoffset := hread.eq_ok (readNumber_of_legal ho)
  have hlength := hread.eq_ok (readNumber_of_legal hl)
  have hfile := hread.eq_ok (readNumber_of_legal hf)
  have hjump := readJump_of_legal hj
  have hdepth := hread.eq_ok (readDepth_of_legal hd)
  refine ⟨fun hother => ⟨?_, hother.natural⟩, fun hother => ?_⟩
  · cases other
    cases now
    rw [mk.injEq]
    exact ⟨Except.ok.inj (hother.offset.symm.trans hoffset),
      Except.ok.inj (hother.length.symm.trans hlength),
      Except.ok.inj (hother.fileId.symm.trans hfile),
      Except.ok.inj (hother.jump.symm.trans hjump),
      Except.ok.inj (hother.depth.symm.trans hdepth)⟩
  · obtain ⟨rfl, hnatural⟩ := hother
    exact
      { atMost := hmost
        offset := hoffset
        length := hlength
        fileId := hfile
        jump := hjump
        depth := hdepth
        natural := hnatural }

/-- Legal fields are refused when one of them has too many digits. -/
theorem refusesLong_of_legal (hlong : ¬IsReadable (join ':' fields)) :
    RefusesLong (join ':' fields) (decodeFields (join ':' fields) before) := by
  have hsplit := h.split_join hne
  obtain ⟨hmost, ho, hl, hf, hj, hd⟩ := h
  rw [← hsplit] at hmost ho hl hf hj hd
  rw [decodeFields, if_neg (Nat.not_lt.2 hmost)]
  -- The fields are read from the left, and the first one that is too long ends the reading.
  rcases readNumber_of_legal ho with hrefused | ⟨hoffset, hshortOffset⟩
  · exact hrefused.bind _
  rcases readNumber_of_legal hl with hrefused | ⟨hlength, hshortLength⟩
  · simp only [hoffset, ok_bind]
    exact hrefused.bind _
  rcases readNumber_of_legal hf with hrefused | ⟨hfile, hshortFile⟩
  · simp only [hoffset, hlength, ok_bind]
    exact hrefused.bind _
  rcases readDepth_of_legal hd with hrefused | ⟨-, hshortDepth⟩
  · simp only [hoffset, hlength, hfile, readJump_of_legal hj, ok_bind]
    exact hrefused.bind _
  have hshortJump : ∀ field ∈ (split ':' (join ':' fields))[3]?, digitCount field ≤ maxDigits :=
    fun _ hget => digitCount_of_legalJump (hget ▸ hj)
  exact absurd
    (forall_fields hmost hshortOffset hshortLength hshortFile hshortJump hshortDepth) hlong

end Fields

/-- A legal entry is read as its range. -/
theorem decode_of_abbreviates {before now : Range} {entry : List Char}
    (h : Abbreviates before now entry) (hnow : now.IsSource) (hread : IsReadable entry) :
    decode entry before = .ok now := by
  cases h with
  | repeated => rfl
  | fields h hne =>
    rw [decode, if_neg (by simpa using hne)]
    exact decodeFields_eq_ok_iff.2 ((decodes_iff_of_legal h hne hread).2 ⟨rfl, hnow.isNatural⟩)

/-- A legal entry is refused when one of its fields has too many digits. -/
theorem refusesLong_of_abbreviates {before now : Range} {entry : List Char}
    (h : Abbreviates before now entry) (hlong : ¬IsReadable entry) :
    RefusesLong entry (decode entry before) := by
  cases h with
  | repeated =>
    refine absurd (fun field hfield => ?_) hlong
    rw [List.mem_singleton.1 hfield]
    exact Nat.zero_le _
  | fields h hne =>
    rw [decode, if_neg (by simpa using hne)]
    exact refusesLong_of_legal h hne hlong

end Range

namespace SourceMap

/-! ### Reading a stream -/

/-- Entries that are legal for ranges of the sources, one after the other. -/
inductive Stream : Range → List Range → List (List Char) → Prop
  | nil {before : Range} : Stream before [] []
  | cons {before now : Range} {entry : List Char} {ranges : List Range}
      {entries : List (List Char)} (hnow : now.IsSource) (hentry : before.Abbreviates now entry)
      (hrest : Stream now ranges entries) : Stream before (now :: ranges) (entry :: entries)

theorem Stream.not_mem {before : Range} {ranges : List Range} {entries : List (List Char)}
    (h : Stream before ranges entries) : ∀ entry ∈ entries, ';' ∉ entry := by
  induction h with
  | nil => exact fun entry hentry => absurd hentry List.not_mem_nil
  | cons _ hentry _ ih => exact List.forall_mem_cons.2 ⟨hentry.not_mem, ih⟩

theorem decodeEntries_of_stream {before : Range} {ranges : List Range}
    {entries : List (List Char)} (h : Stream before ranges entries)
    (hread : ∀ entry ∈ entries, Range.IsReadable entry) :
    decodeEntries before entries = .ok ranges := by
  induction h with
  | nil => rfl
  | cons hnow hentry _ ih =>
    obtain ⟨hfirst, hrest⟩ := List.forall_mem_cons.1 hread
    rw [decodeEntries, Range.decode_of_abbreviates hentry hnow hfirst, ok_bind, ih hrest]
    rfl

/-- An entry with a field of too many digits ends the reading, and the first one counts. -/
theorem refusesLong_of_stream {before : Range} {ranges : List Range} {entries : List (List Char)}
    (h : Stream before ranges entries) (hlong : ∃ entry ∈ entries, ¬Range.IsReadable entry) :
    ∃ earlier entry later, entries = earlier ++ entry :: later ∧
      (∀ other ∈ earlier, Range.IsReadable other) ∧
      Range.RefusesLong entry (decodeEntries before entries) := by
  induction h with
  | nil =>
    obtain ⟨entry, hentry, -⟩ := hlong
    cases hentry
  | @cons before now entry ranges entries hnow hentry _ ih =>
    rw [decodeEntries]
    by_cases hfirst : Range.IsReadable entry
    · obtain ⟨found, hfound, hnot⟩ := hlong
      have hbehind := (List.mem_cons.1 hfound).resolve_left fun heq => hnot (heq ▸ hfirst)
      obtain ⟨earlier, other, later, rfl, hearlier, hrefused⟩ := ih ⟨found, hbehind, hnot⟩
      refine ⟨entry :: earlier, other, later, rfl, List.forall_mem_cons.2 ⟨hfirst, hearlier⟩, ?_⟩
      rw [Range.decode_of_abbreviates hentry hnow hfirst, ok_bind]
      exact hrefused.bind _
    · refine ⟨[], entry, entries, rfl, List.forall_mem_nil _, ?_⟩
      exact (Range.refusesLong_of_abbreviates hentry hfirst).bind _

/-- Entries with semicolons between them are read one by one. -/
theorem decode_join {entries : List (List Char)} (hne : join ';' entries ≠ [])
    (h : ∀ entry ∈ entries, ';' ∉ entry) :
    decode (join ';' entries) = decodeEntries .origin entries := by
  have hsome : entries ≠ [] := fun hnil => hne (by rw [hnil]; rfl)
  rw [decode, if_neg (by simpa using hne), split_join hsome h]

/-- **Reading undoes every legal compression.** A source map whose entries are legal for some
ranges, in any of the ways in which these can be written, and which is not the empty text, is read
as these ranges, provided no number in it has too many digits to be read. If one has, the map is
refused for a field of the first such entry. -/
theorem decode_of_stream {ranges : List Range} {entries : List (List Char)}
    (h : Stream .origin ranges entries) (hne : join ';' entries ≠ []) :
    ((∀ entry ∈ entries, Range.IsReadable entry) → decode (join ';' entries) = .ok ranges) ∧
      ((∃ entry ∈ entries, ¬Range.IsReadable entry) →
        ∃ earlier entry later, entries = earlier ++ entry :: later ∧
          (∀ other ∈ earlier, Range.IsReadable other) ∧
          Range.RefusesLong entry (decode (join ';' entries))) := by
  rw [decode_join hne h.not_mem]
  exact ⟨decodeEntries_of_stream h, refusesLong_of_stream h⟩

/-- A jump into a function, once more the same, and then a shorter one in a modifier, whose other
fields stay blank. -/
theorem decode_of_stream_calls :
    ∃ ranges entries, Stream .origin ranges entries ∧
      entries = ["26:487:-1:i".toList, [], ":4:::2".toList] ∧
      decode "26:487:-1:i;;:4:::2".toList = .ok ranges := by
  have hfirst : Range.origin.Abbreviates ⟨some 26, some 487, some (-1), .into, none⟩
      "26:487:-1:i".toList :=
    @Range.Abbreviates.fields _ _ ["26".toList, "487".toList, "-1".toList, ['i']]
      { atMost := by decide
        offset := ⟨26, rfl, writes_digits [2, 6] (by decide) (by decide)⟩
        length := ⟨487, rfl, writes_digits [4, 8, 7] (by decide) (by decide)⟩
        fileId := ⟨-1, rfl, [1], by decide, by decide, .inr ⟨rfl, rfl⟩⟩
        jump := ⟨'i', rfl, rfl⟩
        depth := rfl }
      (by decide)
  have hlast : Range.Abbreviates ⟨some 26, some 487, some (-1), .into, none⟩
      ⟨some 26, some 4, some (-1), .into, some 2⟩ ":4:::2".toList :=
    @Range.Abbreviates.fields _ _ [[], ['4'], [], [], ['2']]
      { atMost := by decide
        offset := rfl
        length := ⟨4, rfl, writes_digits [4] (by decide) (by decide)⟩
        fileId := rfl
        jump := rfl
        depth := ⟨2, rfl, writes_digits [2] (by decide) (by decide)⟩ }
      (by decide)
  have hsource : ∀ length : Nat, ∀ depth,
      Range.IsSource ⟨some 26, some length, some (-1), .into, depth⟩ := fun length depth =>
    ⟨⟨26, rfl, by decide⟩, ⟨length, rfl, Int.natCast_nonneg length⟩, -1, rfl⟩
  have hstream := Stream.cons (hsource 487 none) hfirst
    (.cons (hsource 487 none) .repeated (.cons (hsource 4 (some 2)) hlast .nil))
  refine ⟨_, _, hstream, rfl, ?_⟩
  exact (decode_of_stream hstream (by decide)).1 (by unfold Range.IsReadable; decide)

/-! ### Numbers of too many digits -/

/-- The digits of the least number that is too long to be read. -/
def tooLong : List Nat := 1 :: List.replicate maxDigits 0

/-- The first range of the sources, moved to that number. -/
def farRange : Range := { Range.origin with offset := some (ofDigits tooLong) }

/-- A map of one entry, in which the offset is written in decimal and all else stays what it was, is
legal for the range and yet refused. -/
theorem not_decode_tooLong :
    Stream .origin [farRange] [tooLong.map Nat.digitChar] ∧
      join ';' [tooLong.map Nat.digitChar] ≠ [] ∧
      decode (join ';' [tooLong.map Nat.digitChar]) ≠ .ok [farRange] := by
  have hdigits : ∀ d ∈ tooLong, d < 10 := by
    intro d hd
    rcases List.mem_cons.1 hd with rfl | hd
    · decide
    · rw [List.eq_of_mem_replicate hd]
      decide
  have hwrites := writes_digits tooLong (by simp [tooLong]) hdigits
  have hlong : maxDigits < digitCount (tooLong.map Nat.digitChar) := by
    rw [digitCount_map_digitChar hdigits, tooLong, List.length_cons, List.length_replicate]
    exact Nat.lt_succ_self _
  generalize tooLong.map Nat.digitChar = entry at hwrites hlong
  have hne : join ';' [entry] ≠ [] := hwrites.ne_nil
  have hlegal : Range.LegalFields .origin farRange [entry] :=
    { atMost := Nat.succ_le_succ (Nat.zero_le _)
      offset := Range.legalNumber_of_writes _ hwrites
      length := rfl
      fileId := rfl
      jump := rfl
      depth := rfl }
  have hsource : farRange.IsSource :=
    ⟨⟨_, rfl, Int.natCast_nonneg _⟩, ⟨0, rfl, by decide⟩, 0, rfl⟩
  have hstream : Stream .origin [farRange] [entry] := .cons hsource (.fields hlegal hne) .nil
  have hunreadable : ¬Range.IsReadable entry := by
    intro hread
    have hsplit : split ':' entry = [entry] := hlegal.split_join hne
    rw [Range.IsReadable, hsplit] at hread
    exact Nat.not_le.2 hlong (hread entry (List.mem_singleton_self _))
  obtain ⟨_, _, _, -, -, hrefused⟩ :=
    refusesLong_of_stream hstream ⟨entry, List.mem_singleton_self _, hunreadable⟩
  rw [decode_join hne hstream.not_mem]
  exact ⟨hstream, hne, hrefused.ne_ok _⟩

end SourceMap

end ContractCoverage
