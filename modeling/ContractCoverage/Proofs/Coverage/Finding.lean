import ContractCoverage.Proofs.Coverage.Built
import ContractCoverage.Proofs.Source.Reencoding

/-! Looking up the ranges of a caller.

A table keeps its targets under keys in writing. No two keys have the same text
(`RangeKey.write_injective`), so that what is found under the text of a key is what is registered
under the key (`find_eq`). Registered are the targets of the steps that have been accepted, in their
order, and nothing else: an accepted step registers its target behind the others, and a refused one
leaves them alone (`registered_acceptEach`, by induction on the steps).

Only a range with a number that is too long to be written has no text to look under
(`not_find_farRange`). Such a number cannot be read from an entry
(`isWritable_key_of_parse`). -/
namespace ContractCoverage

open Text Numeral

/-! ### The text of a key -/

namespace RangeKey

/-- A number in the text of a key. -/
def field (n : Option Int) : List Char := ((n.map toString).getD "None").toList

/-- A known number has a text without any letters. -/
theorem field_cases (n : Option Int) (c : Char) (h : c ∈ field n) :
    n = none ∨ c = '-' ∨ c.isDigit = true := by
  cases n with
  | none => exact .inl rfl
  | some n => exact .inr ((writes_toString n).eq_or_isDigit c h)

theorem not_mem_field (n : Option Int) : ':' ∉ field n := by
  intro h
  rcases field_cases n ':' h with rfl | hminus | hdigit
  · revert h
    decide
  · cases hminus
  · cases hdigit

/-- A number is told by its text, and so is that there is none. -/
theorem field_injective {m n : Option Int} (h : field m = field n) : m = n := by
  -- The name of an unknown number has a letter in it, and no number has.
  have hname : ∀ k : Int, field none ≠ field (some k) := by
    intro k heq
    have hletter : 'N' ∈ field none := by decide
    rcases field_cases (some k) 'N' (heq ▸ hletter) with hnone | hminus | hdigit
    · cases hnone
    · cases hminus
    · cases hdigit
  cases m with
  | none =>
    cases n with
    | none => rfl
    | some n => exact absurd h (hname n)
  | some m =>
    cases n with
    | none => exact absurd h.symm (hname m)
    | some n =>
      have hm := writes_toString m
      rw [show (toString m).toList = (toString n).toList from h] at hm
      rw [hm.unique (writes_toString n)]

theorem split_write (k : RangeKey) :
    split ':' k.write.toList = [field k.offset, field k.length, field k.fileId] := by
  have hjoin : k.write.toList = join ':' [field k.offset, field k.length, field k.fileId] := by
    simp only [write, String.toList_append, List.append_assoc]
    rfl
  rw [hjoin]
  refine split_join (List.cons_ne_nil _ _) fun text htext => ?_
  simp only [List.mem_cons, List.not_mem_nil, or_false] at htext
  rcases htext with rfl | rfl | rfl <;> exact not_mem_field _

/-- **No two keys have the same text.** -/
theorem write_injective {k k' : RangeKey} (h : k.write = k'.write) : k = k' := by
  have hsplit := split_write k
  rw [h, split_write] at hsplit
  simp only [List.cons.injEq, and_true] at hsplit
  obtain ⟨hoffset, hlength, hfile⟩ := hsplit
  cases k
  cases k'
  rw [mk.injEq]
  exact ⟨(field_injective hoffset).symm, (field_injective hlength).symm,
    (field_injective hfile).symm⟩

example : RangeKey.write ⟨some 3, some (-1), none⟩ = "3:-1:None" := by decide

theorem text_eq (k : RangeKey) :
    k.text = if k.numerals.all isWritable then .ok k.write else .error .tooManyDigits := rfl

end RangeKey

/-- A number of an entry that stands by itself can be written. -/
theorem Range.isWritable_of_readNumber {entry : List Char} {place : Nat} {now : Option Int}
    (h : readNumber entry place none = .ok now) : ∀ n, now = some n → isWritable n = true := by
  rcases readNumber_cases h with rfl | ⟨m, rfl, hm⟩
  · exact nofun
  · rintro n ⟨⟩
    exact hm

/-- The key of an entry can always be written. -/
theorem Range.isWritable_key_of_parse {entry : List Char} {r : Range} (h : parse entry = .ok r) :
    r.key.numerals.all isWritable = true := by
  unfold parse relativeTo at h
  split at h
  · cases h
    rfl
  · next hsome =>
    rw [decode, if_neg hsome, decodeFields_eq_ok_iff] at h
    refine List.all_eq_true.2 fun n hn => ?_
    obtain ⟨number, hnumber, hknown⟩ := List.mem_filterMap.1 hn
    simp only [key, List.mem_cons, List.not_mem_nil, or_false] at hnumber
    rcases hnumber with rfl | rfl | rfl
    · exact isWritable_of_readNumber h.offset n hknown
    · exact isWritable_of_readNumber h.length n hknown
    · exact isWritable_of_readNumber h.fileId n hknown

/-- A source that has a key is let through when the key has a text. -/
theorem SourceRef.check_eq_ok_iff {src : SourceRef} {key : RangeKey} (h : src.key = .ok key) :
    src.check = .ok () ↔ key.numerals.all isWritable = true := by
  cases src with
  | entry text =>
    obtain ⟨r, hparse, rfl⟩ := map_eq_ok_iff.1 h
    exact iff_of_true rfl (Range.isWritable_key_of_parse hparse)
  | range r =>
    cases h
    show r.key.text.map _ = _ ↔ _
    rw [RangeKey.text_eq]
    split
    · next hall => exact iff_of_true rfl hall
    · next hlong => exact iff_of_false nofun hlong

namespace RangeTable

/-! ### Steps of a caller -/

/-- A step is accepted when its source has a key in writing and the step can be taken. -/
theorem accept_eq_ok_iff {t t' : RangeTable} {step : Registration} :
    t.accept step = (t', .ok ()) ↔ step.check = .ok () ∧ t.add step = (t', .ok ()) := by
  constructor
  · intro h
    unfold accept at h
    split at h
    · cases h
    · next hnot =>
      -- The step has been listed, so it has not got past a check that refuses it.
      refine ⟨?_, h⟩
      obtain ⟨listed, hlist, -⟩ := add_eq_ok_iff.1 h
      cases hcheck : step.check with
      | ok => rfl
      | error fault => exact absurd hcheck (hnot listed fault hlist)
  · rintro ⟨hcheck, hadd⟩
    unfold accept
    split
    · next hrefused =>
      rw [hcheck] at hrefused
      cases hrefused
    · exact hadd

/-- Which steps are accepted: those whose names can be listed, and whose source has a key that can be
written. -/
theorem isAccepted_iff (t : RangeTable) (step : Registration) :
    (t.accept step).2 = .ok () ↔ (∃ listed, t.list step = .ok listed) ∧
      ∀ src target, step.target? = some (src, target) →
        ∃ key, src.key = .ok key ∧ key.numerals.all isWritable = true := by
  have hanswer : (t.accept step).2 = .ok () ↔ ∃ t', t.accept step = (t', .ok ()) :=
    ⟨fun h => ⟨_, Prod.ext rfl h⟩, fun ⟨_, h⟩ => by rw [h]⟩
  simp only [hanswer, accept_eq_ok_iff, add_eq_ok_iff, Registration.check, enroll]
  cases step.target? with
  | none =>
    constructor
    · rintro ⟨t', -, listed, hlist, -⟩
      refine ⟨⟨listed, hlist⟩, fun src target hfound => ?_⟩
      cases hfound
    · intro h
      obtain ⟨listed, hlist⟩ := h.1
      exact ⟨listed, rfl, listed, hlist, rfl⟩
  | some found =>
    obtain ⟨src, target⟩ := found
    constructor
    · rintro ⟨t', hcheck, listed, hlist, henroll⟩
      refine ⟨⟨listed, hlist⟩, ?_⟩
      rintro _ _ ⟨⟩
      obtain ⟨key, hkey, -⟩ := map_eq_ok_iff.1 henroll
      exact ⟨key, hkey, (SourceRef.check_eq_ok_iff hkey).1 hcheck⟩
    · rintro ⟨⟨listed, hlist⟩, hsource⟩
      obtain ⟨key, hkey, hwritable⟩ := hsource src target rfl
      exact ⟨listed.register key target, (SourceRef.check_eq_ok_iff hkey).2 hwritable, listed,
        hlist, map_eq_ok_iff.2 ⟨key, hkey, rfl⟩⟩

/-- A step that is accepted registers its target behind those that are there. -/
theorem registered_of_accepted {t t' : RangeTable} {step : Registration}
    (h : t.accept step = (t', .ok ())) : t'.registered = t.registered ++ step.entries :=
  (add_of_ok (accept_eq_ok_iff.1 h).2).1

/-- A step that is refused registers nothing. -/
theorem registered_of_refused {t t' : RangeTable} {step : Registration} {fault : Fault}
    (h : t.accept step = (t', .error fault)) : t'.registered = t.registered := by
  unfold accept at h
  split at h
  · next hlist _ =>
    cases h
    exact registered_of_list hlist
  · unfold add at h
    split at h
    · cases h
      rfl
    · next hlist =>
      split at h
      · cases h
        exact registered_of_list hlist
      · cases h

/-- The steps of a caller that are accepted, each by the table that those before it have left. -/
def accepted (t : RangeTable) : List Registration → List Registration
  | [] => []
  | step :: steps =>
    match t.accept step with
    | (t', .ok ()) => step :: t'.accepted steps
    | (t', .error _) => t'.accepted steps

/-- What is registered is what the accepted steps register. -/
theorem registered_acceptEach (t : RangeTable) (steps : List Registration) :
    (t.acceptEach steps).registered =
      t.registered ++ (t.accepted steps).flatMap Registration.entries := by
  induction steps generalizing t with
  | nil => exact (List.append_nil _).symm
  | cons step steps ih =>
    show ((t.accept step).1.acceptEach steps).registered = _
    rw [accepted]
    split
    · next t' hok =>
      rw [hok, ih, registered_of_accepted hok, List.flatMap_cons, List.append_assoc]
    · next t' fault hfault => rw [hfault, ih, registered_of_refused hfault]

end RangeTable

/-! ### Looking up -/

/-- The range that a source is given as. -/
def SourceRef.range? : SourceRef → Option Range
  | .entry text => (Range.parse text).toOption
  | .range r => some r

/-- The target that a step registers for the ranges of one offset, length and file. -/
def Registration.targetFor? (step : Registration) (r : Range) : Option Target := do
  let (src, target) ← step.target?
  let own ← src.range?
  if own.offset = r.offset ∧ own.length = r.length ∧ own.fileId = r.fileId then
    some target
  else
    none

theorem Range.key_eq_iff {a b : Range} :
    a.key = b.key ↔ a.offset = b.offset ∧ a.length = b.length ∧ a.fileId = b.fileId := by
  simp [Range.key]

theorem SourceRef.key_cases (src : SourceRef) :
    (∃ own, src.range? = some own ∧ src.key = .ok own.key) ∨
      src.range? = none ∧ ∃ fault, src.key = .error fault := by
  cases src with
  | range own => exact .inl ⟨own, rfl, rfl⟩
  | entry text =>
    simp only [range?, key]
    cases Range.parse text with
    | error fault => exact .inr ⟨rfl, fault, rfl⟩
    | ok own => exact .inl ⟨own, rfl, rfl⟩

/-- What a step that is accepted registers under the key of a range is its target for it. -/
theorem Registration.filter_entries (step : Registration) (r : Range) :
    (step.entries.filter (·.1 == r.key)).map (·.2) = (step.targetFor? r).toList := by
  unfold entries targetFor?
  cases step.target? with
  | none => rfl
  | some found =>
    obtain ⟨src, target⟩ := found
    rcases src.key_cases with ⟨own, hrange, hkey⟩ | ⟨hrange, fault, hkey⟩
    · simp only [hkey, Option.bind_eq_bind, Option.bind_some, hrange]
      by_cases hsame : own.key = r.key
      · rw [if_pos (Range.key_eq_iff.1 hsame), List.filter_cons_of_pos (by simpa using hsame)]
        rfl
      · rw [if_neg (mt Range.key_eq_iff.2 hsame), List.filter_cons_of_neg (by simpa using hsame)]
        rfl
    · simp only [hkey, Option.bind_eq_bind, Option.bind_some, hrange]
      rfl

namespace RangeTable

/-- What a caller finds is what is registered for the range, if its key has a text. -/
theorem find_eq (t : RangeTable) (r : Range) :
    t.find r = if r.isComplete then r.key.text.map fun _ => t.resolve r else .ok [] := by
  unfold find resolve
  split
  · next hcomplete =>
    rw [RangeKey.text_eq]
    split
    · have hsame : ∀ e : RangeKey × Target, (e.1.write == r.key.write) = (e.1 == r.key) := by
        intro e
        rw [Bool.eq_iff_iff, beq_iff_eq, beq_iff_eq]
        exact ⟨RangeKey.write_injective, congrArg RangeKey.write⟩
      simp only [ok_bind, map_ok, hsame, targetsOf]
      rfl
    · rfl
  · rfl

/-- What is registered for a complete range are the targets of the accepted steps for it. -/
theorem targetsOf_acceptEach (steps : List Registration) (r : Range) :
    (acceptEach .empty steps).targetsOf r.key =
      (accepted .empty steps).filterMap (·.targetFor? r) := by
  rw [targetsOf, registered_acceptEach]
  show (((accepted .empty steps).flatMap Registration.entries).filter _).map _ = _
  generalize accepted .empty steps = steps
  induction steps with
  | nil => rfl
  | cons step steps ih =>
    rw [List.flatMap_cons, List.filter_append, List.map_append, ih,
      Registration.filter_entries, List.filterMap_cons]
    cases step.targetFor? r <;> rfl

/-- **Looking up is exact.** After any steps of a caller, refused ones among them, a range without
an offset or a length has no targets. Any other one has the targets of the accepted steps whose
source has its offset, length and file, in their order, provided that these can be written; if they
cannot, it is refused. A step is refused when what it names cannot be listed or its source has no
key, or none that can be written, and then it changes what is found for no range. -/
theorem find_acceptEach :
    (∀ (steps : List Registration) (r : Range), (acceptEach .empty steps).find r =
      if ¬r.isComplete then .ok []
      else if r.key.numerals.all isWritable then
        .ok ((accepted .empty steps).filterMap (·.targetFor? r))
      else .error .tooManyDigits) ∧
    ∀ (t : RangeTable) (step : Registration),
      ((t.accept step).2 = .ok () ↔ (∃ listed, t.list step = .ok listed) ∧
        ∀ src target, step.target? = some (src, target) →
          ∃ key, src.key = .ok key ∧ key.numerals.all isWritable = true) ∧
      ((t.accept step).2 ≠ .ok () → ∀ r, (t.accept step).1.find r = t.find r) := by
  refine ⟨fun steps r => ?_, fun t step => ⟨isAccepted_iff t step, fun hrefused r => ?_⟩⟩
  · rw [find_eq, resolve, targetsOf_acceptEach, RangeKey.text_eq]
    cases r.isComplete with
    | false => rfl
    | true =>
      simp only [not_true_eq_false, if_true, if_false]
      split <;> rfl
  · have hsame : (t.accept step).1.registered = t.registered := by
      cases hanswer : (t.accept step).2 with
      | ok => exact absurd hanswer hrefused
      | error fault => exact registered_of_refused (Prod.ext rfl hanswer)
    rw [find_eq, find_eq, resolve, resolve, targetsOf, targetsOf, hsame]

/-- A range from the least offset on that is too long to be written. -/
def farRange : Range := { offset := some writingBound, length := some 1 }

/-- In the empty table it has no targets, and yet it is not found to have none. -/
theorem not_find_farRange :
    farRange.isComplete = true ∧ (accepted .empty []).filterMap (·.targetFor? farRange) = [] ∧
      (acceptEach .empty []).find farRange ≠ .ok [] := by
  refine ⟨rfl, rfl, ?_⟩
  have hlong : ¬farRange.key.numerals.all isWritable = true := fun hall => by
    have hwritable := List.all_eq_true.1 hall writingBound
      (List.mem_filterMap.2 ⟨farRange.key.offset, List.mem_cons_self .., rfl⟩)
    rw [not_isWritable_writingBound] at hwritable
    cases hwritable
  rw [find_eq, if_pos (show farRange.isComplete = true from rfl), RangeKey.text_eq, if_neg hlong]
  exact nofun

end RangeTable

end ContractCoverage
