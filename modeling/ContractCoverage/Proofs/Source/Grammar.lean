import ContractCoverage.Proofs.Source.Reencoding
import ContractCoverage.Proofs.Text.Literals

/-! The source maps that can be read.

Whether an entry can be read, and what is wrong with it when it cannot, does not depend on
the range before it (`verdict_congr`): what a blank field takes over from there is never
negative, and this is handed on from entry to entry. So an entry can be judged by itself,
by its grammar (`verdict_eq_ok_iff`), and a map can be read exactly when each of its entries
can (`decode_iff_grammar`). -/
namespace ContractCoverage

open Text Numeral

namespace Range

/-! ### The grammar of an entry -/

/-- A field for a number of at most `most` digits, which may be left blank. -/
def IsNumberField (most : Nat) (field : List Char) : Prop :=
  field = [] ∨ ∃ n, IsInteger most field n

/-- A field for a number that is not negative, which may be left blank. -/
def IsNaturalField (most : Nat) (field : List Char) : Prop :=
  field = [] ∨ ∃ n, IsInteger most field n ∧ 0 ≤ n

/-- Fields of an entry in which no number has more than `most` digits; the last ones may be
missing. -/
structure FitsGrammar (most : Nat) (fields : List (List Char)) : Prop where
  atMost : fields.length ≤ 5
  offset : ∀ field ∈ fields[0]?, IsNaturalField most field
  length : ∀ field ∈ fields[1]?, IsNaturalField most field
  fileId : ∀ field ∈ fields[2]?, IsNumberField most field
  jump : ∀ field ∈ fields[3]?, field ∈ [[], ['i'], ['o'], ['-']]
  depth : ∀ field ∈ fields[4]?, IsNumberField most field

/-- An entry of a source map, in which no number has more than `most` digits. -/
def IsEntry (most : Nat) (entry : List Char) : Prop :=
  entry = [] ∨ FitsGrammar most (split ':' entry)

/-! ### Entries by themselves -/

theorem outcome_readNumber (entry : List Char) (place : Nat) (a b : Option Int) :
    outcome (readNumber entry place a) = outcome (readNumber entry place b) := by
  unfold readNumber
  split
  · rfl
  · rfl
  · split <;> rfl

theorem outcome_readJump (entry : List Char) (a b : JumpKind) :
    outcome (readJump entry a) = outcome (readJump entry b) := by
  unfold readJump
  split <;> rfl

theorem outcome_readDepth (entry : List Char) (a b : Option Int) :
    outcome (readDepth entry a) = outcome (readDepth entry b) := by
  unfold readDepth
  split
  · rfl
  · exact outcome_readNumber entry 4 a b

/-- A number that is taken over where none is written does not make a negative one. -/
theorem isNegative_congr {entry : List Char} {place : Nat} {a b m n : Option Int}
    (ha : isNegative a = false) (hb : isNegative b = false) (hm : readNumber entry place a = .ok m)
    (hn : readNumber entry place b = .ok n) : isNegative m = isNegative n := by
  revert hm hn
  unfold readNumber
  split
  · rintro ⟨⟩ ⟨⟩
    rw [ha, hb]
  · rintro ⟨⟩ ⟨⟩
    rw [ha, hb]
  · split
    · rintro ⟨⟩ ⟨⟩
      rfl
    · exact nofun

/-- Whether an entry can be read after a range, and what is wrong with it. -/
def verdict (entry : List Char) (before : Range) : Except EntryFault Unit :=
  outcome (decode entry before)

/-- **An entry is judged by itself,** whatever range comes before it. -/
theorem verdict_congr {entry : List Char} {p q : Range} (hp : p.IsNatural) (hq : q.IsNatural) :
    verdict entry p = verdict entry q := by
  unfold verdict decode
  split
  · rfl
  · unfold decodeFields
    split
    · rfl
    · refine outcome_bind_congr (outcome_readNumber ..) fun offset offset' ho ho' => ?_
      refine outcome_bind_congr (outcome_readNumber ..) fun length length' hl hl' => ?_
      refine outcome_bind_congr (outcome_readNumber ..) fun _ _ _ _ => ?_
      refine outcome_bind_congr (outcome_readJump ..) fun _ _ _ _ => ?_
      refine outcome_bind_congr (outcome_readDepth ..) fun _ _ _ _ => ?_
      rw [isNegative_congr hp.offset hq.offset ho ho', isNegative_congr hp.length hq.length hl hl']
      split <;> rfl

/-! ### Entries by their grammar -/

/-- A number can be read, and has a property that the one to be taken over has, when the field is
blank or missing or a literal for an integer that has it. -/
theorem exists_readNumber_iff {entry : List Char} {place : Nat} {inherited : Option Int}
    {P : Option Int → Prop} (h : P inherited) :
    (∃ now, readNumber entry place inherited = .ok now ∧ P now) ↔
      ∀ field ∈ (split ':' entry)[place]?,
        field = [] ∨ ∃ n, IsInteger maxDigits field n ∧ P (some n) := by
  unfold readNumber
  split
  · next hnone => exact iff_of_true ⟨_, rfl, h⟩ (by simp [hnone])
  · next hblank => exact iff_of_true ⟨_, rfl, h⟩ (by simp [hblank])
  · next field hne hsome =>
    constructor
    · rintro ⟨now, hnow, hp⟩ other hother
      obtain rfl := Option.some.inj (hsome.symm.trans hother)
      split at hnow
      · next n hread =>
        cases hnow
        exact .inr ⟨n, read?_eq_some_iff.1 hread, hp⟩
      · cases hnow
    · intro hall
      rcases hall field hsome with rfl | ⟨n, hn, hp⟩
      · exact absurd rfl hne
      · rw [read?_eq_some_iff.2 hn]
        exact ⟨_, rfl, hp⟩

theorem exists_readNumberField_iff {entry : List Char} {place : Nat} (inherited : Option Int) :
    (∃ now, readNumber entry place inherited = .ok now) ↔
      ∀ field ∈ (split ':' entry)[place]?, IsNumberField maxDigits field := by
  have h := @exists_readNumber_iff entry place inherited (fun _ => True) trivial
  simpa only [IsNumberField, and_true] using h

theorem exists_readNaturalField_iff {entry : List Char} {place : Nat} {inherited : Option Int}
    (h : isNegative inherited = false) :
    (∃ now, readNumber entry place inherited = .ok now ∧ isNegative now = false) ↔
      ∀ field ∈ (split ':' entry)[place]?, IsNaturalField maxDigits field := by
  have hiff := @exists_readNumber_iff entry place inherited (isNegative · = false) h
  simpa only [IsNaturalField, isNegative, Option.any_some, decide_eq_false_iff_not, Int.not_lt]
    using hiff

theorem exists_readJump_iff {entry : List Char} (inherited : JumpKind) :
    (∃ jump, readJump entry inherited = .ok jump) ↔
      ∀ field ∈ (split ':' entry)[3]?, field ∈ [[], ['i'], ['o'], ['-']] := by
  unfold readJump
  split
  · next hnone => exact iff_of_true ⟨_, rfl⟩ (by simp [hnone])
  · next hblank => exact iff_of_true ⟨_, rfl⟩ (by simp [hblank])
  · next field hne hsome =>
    unfold readJumpField
    constructor
    · rintro ⟨jump, hjump⟩ other hother
      obtain rfl := Option.some.inj (hsome.symm.trans hother)
      unfold JumpKind.ofField? at hjump
      split at hjump
      · next hletter => split at hletter <;> simp_all
      · cases hjump
    · intro hall
      have hfield := hall field hsome
      simp only [List.mem_cons, List.not_mem_nil, or_false] at hfield
      rcases hfield with rfl | rfl | rfl | rfl
      · exact absurd rfl hne
      · exact ⟨_, rfl⟩
      · exact ⟨_, rfl⟩
      · exact ⟨_, rfl⟩

theorem exists_readDepth_iff {entry : List Char} (inherited : Option Int) :
    (∃ depth, readDepth entry inherited = .ok depth) ↔
      ∀ field ∈ (split ':' entry)[4]?, IsNumberField maxDigits field := by
  unfold readDepth
  split
  · next hshort =>
    exact iff_of_true ⟨_, rfl⟩ (by simp [List.getElem?_eq_none_iff.2 hshort])
  · exact exists_readNumberField_iff inherited

/-- An entry can be read when it is one by its grammar. -/
theorem verdict_eq_ok_iff {entry : List Char} {before : Range} (h : before.IsNatural) :
    verdict entry before = .ok () ↔ IsEntry maxDigits entry := by
  rw [verdict, outcome_eq_ok_iff, decode, IsEntry]
  split
  · next hempty => exact iff_of_true ⟨_, rfl⟩ (.inl (List.isEmpty_iff.1 hempty))
  · next hsome =>
    have hne : entry ≠ [] := fun hnil => hsome (by rw [hnil]; rfl)
    simp only [decodeFields_eq_ok_iff, hne, false_or]
    constructor
    · rintro ⟨now, hnow⟩
      exact
        { atMost := hnow.atMost
          offset := (exists_readNaturalField_iff h.offset).1 ⟨_, hnow.offset, hnow.natural.offset⟩
          length := (exists_readNaturalField_iff h.length).1 ⟨_, hnow.length, hnow.natural.length⟩
          fileId := (exists_readNumberField_iff _).1 ⟨_, hnow.fileId⟩
          jump := (exists_readJump_iff _).1 ⟨_, hnow.jump⟩
          depth := (exists_readDepth_iff _).1 ⟨_, hnow.depth⟩ }
    · intro hfits
      obtain ⟨offset, hoffset, ho⟩ := (exists_readNaturalField_iff h.offset).2 hfits.offset
      obtain ⟨length, hlength, hl⟩ := (exists_readNaturalField_iff h.length).2 hfits.length
      obtain ⟨fileId, hfile⟩ := (exists_readNumberField_iff before.fileId).2 hfits.fileId
      obtain ⟨jump, hjump⟩ := (exists_readJump_iff before.jump).2 hfits.jump
      obtain ⟨depth, hdepth⟩ := (exists_readDepth_iff before.modifierDepth).2 hfits.depth
      exact ⟨⟨offset, length, fileId, jump, depth⟩, hfits.atMost, hoffset, hlength, hfile, hjump,
        hdepth, ho, hl⟩

theorem isNatural_of_decode {entry : List Char} {before now : Range}
    (h : decode entry before = .ok now) (hbefore : before.IsNatural) : now.IsNatural := by
  unfold decode at h
  split at h
  · cases h
    exact hbefore
  · exact (decodeFields_eq_ok_iff.1 h).natural

theorem isNatural_origin : origin.IsNatural := ⟨rfl, rfl⟩

end Range

namespace SourceMap

/-! ### The whole map -/

/-- The entries of a list are judged one by one. -/
theorem outcome_decodeEntries {entries : List (List Char)} {before : Range}
    (h : before.IsNatural) :
    outcome (decodeEntries before entries) = entries.forM (Range.verdict · .origin) := by
  induction entries generalizing before with
  | nil => rfl
  | cons entry entries ih =>
    show outcome (Range.decode entry before >>= _) =
      (Range.verdict entry .origin >>= fun _ => entries.forM (Range.verdict · .origin))
    rw [Range.verdict_congr Range.isNatural_origin h, Range.verdict]
    cases hnow : Range.decode entry before with
    | error fault => rfl
    | ok now =>
      have hrest := ih (Range.isNatural_of_decode hnow h)
      show outcome (decodeEntries now entries >>= _) = _
      rw [show outcome (.ok now : Except EntryFault Range) = .ok () from rfl, ok_bind, ← hrest]
      cases decodeEntries now entries <;> rfl

/-- The entries of a map are judged one by one. -/
theorem outcome_decode (map : List Char) :
    outcome (decode map) = (split ';' map).forM (Range.verdict · .origin) := by
  unfold decode
  split
  · next hempty =>
    rw [List.isEmpty_iff.1 hempty]
    rfl
  · exact outcome_decodeEntries Range.isNatural_origin

theorem length_decodeEntries {entries : List (List Char)} {before : Range} {ranges : List Range}
    (h : decodeEntries before entries = .ok ranges) : ranges.length = entries.length := by
  induction entries generalizing before ranges with
  | nil =>
    cases h
    rfl
  | cons entry entries ih =>
    simp only [decodeEntries, bind_eq_ok_iff] at h
    obtain ⟨now, -, rest, hrest, h⟩ := h
    cases h
    rw [List.length_cons, List.length_cons, ih hrest]

/-- There is a range for each entry, and none for the empty map. -/
theorem length_decode {map : List Char} {ranges : List Range} (h : decode map = .ok ranges) :
    ranges.length = if map = [] then 0 else map.count ';' + 1 := by
  unfold decode at h
  split at h
  · next hempty =>
    cases h
    rw [if_pos (List.isEmpty_iff.1 hempty)]
    rfl
  · next hsome =>
    rw [if_neg fun hnil => hsome (by rw [hnil]; rfl), length_decodeEntries h, length_split]

theorem isSource_of_decode {map : List Char} {ranges : List Range} (h : decode map = .ok ranges) :
    ∀ range ∈ ranges, range.IsSource := by
  unfold decode at h
  split at h
  · cases h
    exact nofun
  · obtain ⟨-, hwritten, -⟩ := stream_write h Range.isWritten_origin
    exact fun range hrange => (hwritten range hrange).isSource

/-- **A source map is read when each of its entries is one by its grammar,** with numbers of no more
digits than can be read. Otherwise it is refused for its first entry that is none, with the fault
that this entry has by itself. What has been read are ranges of the sources, one for each entry. -/
theorem decode_iff_grammar (map : List Char) :
    ((∃ ranges, decode map = .ok ranges) ↔
        ∀ entry ∈ split ';' map, Range.IsEntry maxDigits entry) ∧
      (∀ fault, decode map = .error fault ↔ ∃ before entry after,
        split ';' map = before ++ entry :: after ∧
          (∀ earlier ∈ before, Range.IsEntry maxDigits earlier) ∧
          Range.decode entry .origin = .error fault) ∧
      ∀ ranges, decode map = .ok ranges → (∀ range ∈ ranges, range.IsSource) ∧
        ranges.length = if map = [] then 0 else map.count ';' + 1 := by
  have hverdict : ∀ entry, Range.verdict entry .origin = .ok () ↔ Range.IsEntry maxDigits entry :=
    fun _ => Range.verdict_eq_ok_iff Range.isNatural_origin
  refine ⟨?_, fun fault => ?_, fun ranges h => ⟨isSource_of_decode h, length_decode h⟩⟩
  · rw [← outcome_eq_ok_iff, outcome_decode, forM_eq_ok_iff]
    simp only [hverdict]
  · have hfault : ∀ entry, Range.verdict entry .origin = .error fault ↔
        Range.decode entry .origin = .error fault := fun _ => outcome_eq_error_iff
    rw [← outcome_eq_error_iff, outcome_decode, forM_eq_error_iff]
    simp only [hverdict, hfault]

/-- An entry with a jump, one that repeats it, and one that only says a modifier depth. -/
theorem decode_iff_grammar_blank : ∃ ranges, decode "٢:+6: 0 :i;;::::1_0".toList = .ok ranges ∧
    (∀ range ∈ ranges, range.IsSource) ∧ ranges.length = 3 := by
  have h : decode "٢:+6: 0 :i;;::::1_0".toList =
      .ok [⟨some 2, some 6, some 0, .into, none⟩, ⟨some 2, some 6, some 0, .into, none⟩,
        ⟨some 2, some 6, some 0, .into, some 10⟩] := rfl
  obtain ⟨-, -, hread⟩ := decode_iff_grammar "٢:+6: 0 :i;;::::1_0".toList
  exact ⟨_, h, hread _ h⟩

/-! ### Literals of too many digits -/

/-- Five, with zeros in front up to one digit more than can be read. -/
def paddedFive : List Nat := List.replicate maxDigits 0 ++ [5]

theorem lt_ten_paddedFive : ∀ d ∈ paddedFive, d < 10 := by
  intro d hd
  rcases List.mem_append.1 hd with hd | hd
  · rw [List.eq_of_mem_replicate hd]
    decide
  · rw [List.mem_singleton.1 hd]
    decide

/-- A map of one entry with one field, which is a literal for an integer that is not negative. Its
digits are too many, and so it is not read although it follows the grammar. -/
theorem not_decode_paddedFive :
    (∀ entry ∈ split ';' (paddedFive.map Nat.digitChar), ∃ most, Range.IsEntry most entry) ∧
      ∀ ranges, decode (paddedFive.map Nat.digitChar) ≠ .ok ranges := by
  have hne : paddedFive ≠ [] := List.append_ne_nil_of_right_ne_nil _ (List.cons_ne_nil _ _)
  have hliteral := literal_map_digitChar hne lt_ten_paddedFive
  have hwrites := writes_digits paddedFive hne lt_ten_paddedFive
  have hunread : read? (paddedFive.map Nat.digitChar) = none := by
    have hlong : ¬paddedFive.length ≤ maxDigits := by
      rw [paddedFive, List.length_append, List.length_replicate]
      exact Nat.not_succ_le_self _
    rw [read?_writes hwrites, digitCount_map_digitChar lt_ten_paddedFive, if_neg hlong]
  -- From here on the text counts only for what it is, not for its characters.
  generalize paddedFive.map Nat.digitChar = text at hliteral hwrites hunread
  have hsplit : ∀ sep : Char, sep ≠ '-' → sep.isDigit = false → split sep text = [text] := by
    intro sep hminus hdigit
    refine split_of_not_mem fun hmem => ?_
    rcases hwrites.eq_or_isDigit sep hmem with heq | heq
    · exact hminus heq
    · rw [hdigit] at heq
      cases heq
  have hentries := hsplit ';' (by decide) (by decide)
  have hfields := hsplit ':' (by decide) (by decide)
  constructor
  · rw [hentries]
    intro entry hentry
    rw [List.mem_singleton.1 hentry]
    refine ⟨paddedFive.length, .inr ?_⟩
    rw [hfields]
    exact
      { atMost := Nat.succ_le_succ (Nat.zero_le _)
        offset := by
          rintro _ ⟨⟩
          exact .inr ⟨_, ⟨false, paddedFive, hliteral, Nat.le_refl _, rfl⟩, Int.natCast_nonneg _⟩
        length := nofun
        fileId := nofun
        jump := nofun
        depth := nofun }
  · intro ranges h
    have hread := outcome_eq_ok_iff.2 ⟨ranges, h⟩
    rw [outcome_decode, forM_eq_ok_iff, hentries] at hread
    have hentry := hread text (List.mem_singleton_self _)
    rcases (Range.verdict_eq_ok_iff Range.isNatural_origin).1 hentry with hnil | hfits
    · exact hwrites.ne_nil hnil
    · rw [hfields] at hfits
      rcases hfits.offset text rfl with hnil | ⟨n, hn, -⟩
      · exact hwrites.ne_nil hnil
      · rw [read?_eq_some_iff.2 hn] at hunread
        cases hunread

end SourceMap

end ContractCoverage
