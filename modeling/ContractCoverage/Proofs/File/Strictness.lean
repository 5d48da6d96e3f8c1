import ContractCoverage.Proofs.Code.Addresses
import ContractCoverage.Proofs.File.Numbering
import ContractCoverage.Proofs.File.Reports

/-! Strict and lenient settings.

Under strict settings a range that goes beyond the end of its file is refused, under
lenient ones it is dropped. Both read the same texts, and contracts and the syntax tree
that come after such a range may still be refused. So the settings only decide whether a
readable output (`Readable`) must also end within the file (`ingest_eq_ok_iff`). What
passes under strict settings is not touched under lenient ones (`agrees_ingested`), and
with lenient settings a listing is the decoded one but for those ranges (`Trimmed`).
`modes_agree` has it all. -/
namespace ContractCoverage

namespace Settings

/-- Settings under which ranges beyond the end of their file are refused. -/
def strict (s : Settings) : Settings := { s with strictRanges := true }

/-- Settings under which they are dropped. -/
def lenient (s : Settings) : Settings := { s with strictRanges := false }

end Settings

/-! ### What is decoded -/

/-- The listing that code and source map of a contract stand for, both being decoded. -/
def Decodes (contract : String × Value) (part : CodePart) (l : Listing) : Prop :=
  ∃ code map ranges bytes, CompilerOutput.codeTexts contract.1 contract.2 part = .ok (code, map) ∧
    SourceMap.decode map = .ok ranges ∧ Bytecode.decode code = .ok bytes ∧
    l = .ofBytes code bytes ranges

theorem result_listing_eq_ok_iff {contract : String × Value} {part : CodePart} {l : Listing} :
    (CompilerOutput.listing contract.1 contract.2 part).result = .ok l ↔
      Decodes contract part l := by
  rw [FileCoverage.result_listing, bind_eq_ok_iff]
  simp only [mapError_eq_ok_iff, Listing.ofText_eq_ok_iff, Prod.exists]
  constructor
  · rintro ⟨code, map, htexts, ranges, bytes, hdecoded⟩
    exact ⟨code, map, ranges, bytes, htexts, hdecoded⟩
  · rintro ⟨code, map, ranges, bytes, htexts, hdecoded⟩
    exact ⟨code, map, htexts, ranges, bytes, hdecoded⟩

/-- An instruction is another one, with the empty range in place of one that goes beyond the end of
its file. -/
structure Entry.Trimmed (number : Value) (size : Nat) (old e : Entry) : Prop where
  instruction : e.instruction = old.instruction
  seen : e.seen = old.seen
  beyond : old.GoesBeyond number size → e.range = .empty
  within : ¬ old.GoesBeyond number size → e.range = old.range

/-- A listing is another one, with empty ranges in place of those that go beyond the end of their
file. -/
structure Listing.Trimmed (number : Value) (size : Nat) (old l : Listing) : Prop where
  code : l.code = old.code
  entries : List.Forall₂ (Entry.Trimmed number size) old.entries l.entries

theorem Decodes.unique {contract : String × Value} {part : CodePart} {l l' : Listing}
    (h : Decodes contract part l) (h' : Decodes contract part l') : l = l' :=
  Except.ok.inj ((result_listing_eq_ok_iff.2 h).symm.trans (result_listing_eq_ok_iff.2 h'))

namespace Logged
variable {α β : Type}

/-- Where one computation succeeds, another one does the same, and reports the same. -/
def Agrees (x y : Logged α) : Prop := ∀ a, x.result = .ok a → y = x

theorem Agrees.refl (x : Logged α) : Agrees x x := fun _ _ => rfl

theorem bind_of_ok {x : Logged α} {a : α} (h : x.result = .ok a) (f : α → Logged β) :
    x >>= f = ⟨x.events ++ (f a).events, (f a).result⟩ := by
  obtain ⟨events, result⟩ := x
  cases h
  rfl

theorem Agrees.bind {x y : Logged α} {f g : α → Logged β} (h : Agrees x y)
    (hnext : ∀ a, Agrees (f a) (g a)) : Agrees (x >>= f) (y >>= g) := by
  intro b hb
  rw [result_bind, bind_eq_ok_iff] at hb
  obtain ⟨a, ha, hfa⟩ := hb
  rw [h a ha, bind_of_ok ha, bind_of_ok ha, hnext a b hfa]

theorem Agrees.mapM {f g : α → Logged β} (h : ∀ a, Agrees (f a) (g a)) (xs : List α) :
    Agrees (xs.mapM f) (xs.mapM g) := by
  have hloop : ∀ done : List β, Agrees (List.mapM.loop f xs done) (List.mapM.loop g xs done) := by
    induction xs with
    | nil => exact fun _ => .refl _
    | cons x xs ih => exact fun done => (h x).bind fun y => ih (y :: done)
  exact hloop []

end Logged

namespace FileCoverage
open CompilerOutput

/-! ### When output is taken in -/

/-- Output can be read: all codes and source maps of its contracts decode, and the syntax tree can
be indexed, if one comes and may bring a table. -/
structure Readable (file : FileCoverage) (contracts source : Value) : Prop where
  contracts : ∃ outputs, contracts = .object outputs ∧
    ∀ contract ∈ outputs, ∀ part, ∃ l, Decodes contract part l
  entry : ∃ fields, entryOf source = .object fields
  tree : ∀ tree, treeOf source = .ok (some tree) → file.resolver.isReplaceable = true →
    ∃ table, Tree.index file.lines tree = .ok table

/-- All complete ranges in the codes of output that carry a number, where that is known, end within
the size of a file. -/
def AllWithin (number : Value) (size : Nat) (contracts : Value) : Prop :=
  ∀ outputs, contracts = .object outputs → ∀ contract ∈ outputs, ∀ part l,
    Decodes contract part l → l.EndsWithin number size

theorem allFit_iff {file : FileCoverage} {number : Value} {l : Listing} :
    (number.isNull = false → ∀ e ∈ l.entries, file.exceeds number e = false) ↔
      l.EndsWithin number file.text.toUTF8.size := by
  rw [Listing.endsWithin_iff]
  constructor
  · intro h e he hbeyond
    have hexceeds := (exceeds_iff hbeyond.1).2 hbeyond
    rw [h hbeyond.1 e he] at hexceeds
    cases hexceeds
  · intro h hknown e he
    exact Bool.eq_false_iff.2 fun hexceeds => h e he ((exceeds_iff hknown).1 hexceeds)

/-- A contract is read when its codes and source maps decode, and under strict settings their ranges
end within the file. -/
theorem readContract_decodes_iff {s : Settings} {file : FileCoverage} {number : Value}
    {contract : String × Value} {found : String × Artifact} :
    (readContract s file number contract).result = .ok found ↔
      found.1 = contract.1 ∧ ∀ part, ∃ whole, Decodes contract part whole ∧
        found.2.part part = file.fit number whole ∧
        (s.strictRanges = true → whole.EndsWithin number file.text.toUTF8.size) := by
  simp only [readContract_eq_ok_iff, result_listing_eq_ok_iff, checkListing_eq_ok_iff, allFit_iff]

theorem exists_readContract_iff {s : Settings} {file : FileCoverage} {number : Value}
    {contract : String × Value} :
    (∃ found, (readContract s file number contract).result = .ok found) ↔
      (∀ part, ∃ l, Decodes contract part l) ∧ (s.strictRanges = true →
        ∀ part l, Decodes contract part l → l.EndsWithin number file.text.toUTF8.size) := by
  simp only [readContract_decodes_iff]
  constructor
  · rintro ⟨found, -, hparts⟩
    refine ⟨fun part => ?_, fun hstrict part l hl => ?_⟩
    · obtain ⟨whole, hwhole, -⟩ := hparts part
      exact ⟨whole, hwhole⟩
    · obtain ⟨whole, hwhole, -, hends⟩ := hparts part
      rw [hl.unique hwhole]
      exact hends hstrict
  · rintro ⟨hdecodes, hends⟩
    obtain ⟨creation, hcreation⟩ := hdecodes .creation
    obtain ⟨deployed, hdeployed⟩ := hdecodes .deployed
    refine ⟨(contract.1, ⟨file.fit number creation, file.fit number deployed⟩), rfl,
      fun part => ?_⟩
    cases part with
    | creation => exact ⟨creation, hcreation, rfl, fun hstrict => hends hstrict _ _ hcreation⟩
    | deployed => exact ⟨deployed, hdeployed, rfl, fun hstrict => hends hstrict _ _ hdeployed⟩

/-- Output is accepted when it can be read and under strict settings its ranges end within the
file. -/
theorem ingest_eq_ok_iff (s : Settings) (file : FileCoverage) (contracts source : Value) :
    (file.ingest s contracts source).result = .ok () ↔
      file.Readable contracts source ∧ (s.strictRanges = true →
        AllWithin (file.numberWith source) file.text.toUTF8.size contracts) := by
  constructor
  · intro h
    obtain ⟨outputs, artifacts, rfl, hread, hentry, htree, -⟩ :=
      ingested_eq_ok_iff.1 (ingest_accepted_iff.1 h)
    have hall := exists_mapM_iff.1 ⟨artifacts, hread⟩
    simp only [exists_readContract_iff] at hall
    refine ⟨⟨⟨outputs, rfl, fun contract hc => (hall contract hc).1⟩, hentry, htree⟩, ?_⟩
    rintro hstrict _ ⟨⟩ contract hc
    exact (hall contract hc).2 hstrict
  · rintro ⟨⟨⟨outputs, rfl, hdecodes⟩, hentry, htree⟩, hends⟩
    obtain ⟨artifacts, hread⟩ := exists_mapM_iff.2 fun contract hc =>
      exists_readContract_iff.2 ⟨hdecodes contract hc, fun hstrict => hends hstrict _ rfl _ hc⟩
    have hingested := ingested_eq_ok_iff.2 ⟨outputs, artifacts, rfl, hread, hentry, htree, rfl⟩
    simp only [ingest, hingested]

/-! ### What is installed -/

theorem trimmed_fitEntry {file : FileCoverage} {number : Value} (hknown : number.isNull = false)
    (e : Entry) : e.Trimmed number file.text.toUTF8.size (file.fitEntry number e) := by
  unfold fitEntry
  by_cases hexceeds : file.exceeds number e = true
  · rw [if_pos hexceeds]
    exact ⟨rfl, rfl, fun _ => rfl, fun h => absurd ((exceeds_iff hknown).1 hexceeds) h⟩
  · rw [if_neg hexceeds]
    exact ⟨rfl, rfl, fun h => absurd ((exceeds_iff hknown).2 h) hexceeds, fun _ => rfl⟩

theorem trimmed_fit (file : FileCoverage) (number : Value) (l : Listing) :
    l.Trimmed number file.text.toUTF8.size (file.fit number l) := by
  unfold fit
  cases hnull : number.isNull with
  | true =>
    rw [if_pos rfl]
    refine ⟨rfl, List.forall₂_same.2 fun e _ => ⟨rfl, rfl, fun h => ?_, fun _ => rfl⟩⟩
    cases hnull.symm.trans h.1
  | false =>
    rw [if_neg nofun]
    exact ⟨rfl, List.forall₂_map_right_iff.2 (List.forall₂_same.2 fun e _ =>
      trimmed_fitEntry hnull e)⟩

/-- What a file is after output, where `changed` says how the listings differ from those that the
texts of their contracts stand for. -/
structure TakenIn (file : FileCoverage) (contracts source : Value)
    (changed : Listing → Listing → Prop) (file' : FileCoverage) : Prop where
  /-- Every contract of the output has new listings, and the others keep theirs. -/
  listings : ∃ outputs, contracts = .object outputs ∧
    (∀ name ∈ outputs.map (·.1), ∃ output artifact, (name, output) ∈ outputs ∧
      file'.artifact? name = some artifact ∧
      ∀ part, ∃ whole, Decodes (name, output) part whole ∧ changed whole (artifact.part part)) ∧
    ∀ name, name ∉ outputs.map (·.1) → file'.artifact? name = file.artifact? name
  /-- The number is that of the source entry, or else the one before. -/
  number : file'.sourceId = file.numberWith source
  /-- The range table is that of the syntax tree where it may come in. -/
  resolver : file'.resolver = (file.treeTable? source).elim file.resolver .derived
  /-- With a range table its targets are listed. -/
  coverage : file'.coverage = (file.treeTable? source).elim file.coverage fun table =>
    file.coverage.merge (table.initial (some file.path))
  name : file'.name = file.name
  path : file'.path = file.path
  text : file'.text = file.text
  /-- Of contracts with the same name the last one counts. -/
  installed : ∃ outputs artifacts, contracts = .object outputs ∧
    List.Forall₂ (fun (contract : String × Value) (found : String × Artifact) =>
      found.1 = contract.1 ∧ ∀ part, ∃ whole, Decodes contract part whole ∧
        changed whole (found.2.part part)) outputs artifacts ∧
    file' = file.install (file.numberWith source) artifacts (file.treeTable? source)

theorem takenIn_of_ok {s : Settings} {file : FileCoverage} {contracts source : Value}
    {changed : Listing → Listing → Prop}
    (hchanged : ∀ l, changed l (file.fit (file.numberWith source) l))
    (h : (file.ingest s contracts source).result = .ok ()) :
    file.TakenIn contracts source changed (file.ingest s contracts source).state := by
  obtain ⟨outputs, artifacts, rfl, hartifacts, -, -, hinstall⟩ :=
    ingested_eq_ok_iff.1 (ingest_accepted_iff.1 h)
  have hparts : ∀ {contract found},
      (readContract s file (file.numberWith source) contract).result = .ok found →
      found.1 = contract.1 ∧ ∀ part, ∃ whole, Decodes contract part whole ∧
        changed whole (found.2.part part) := by
    intro contract found hfound
    obtain ⟨hname, hparts⟩ := readContract_decodes_iff.1 hfound
    refine ⟨hname, fun part => ?_⟩
    obtain ⟨whole, hwhole, hfit, -⟩ := hparts part
    rw [hfit]
    exact ⟨whole, hwhole, hchanged whole⟩
  obtain ⟨hnamed, hothers⟩ := artifact?_of_mapM (fun _ _ hfound => (hparts hfound).1) hartifacts
    file (file.numberWith source) (file.treeTable? source)
  rw [← hinstall] at hnamed hothers
  refine
    { listings := ⟨outputs, rfl, fun name hname => ?_, hothers⟩
      number := by rw [hinstall, install_eq]
      resolver := by rw [hinstall, install_eq]
      coverage := by rw [hinstall, install_eq]
      name := by rw [hinstall, install_eq]
      path := by rw [hinstall, install_eq]
      text := by rw [hinstall, install_eq]
      installed := ⟨outputs, artifacts, rfl, (mapM_eq_ok_iff.1 hartifacts).imp fun _ _ => hparts,
        hinstall⟩ }
  obtain ⟨output, artifact, hmem, hget, hresult⟩ := hnamed name hname
  exact ⟨output, artifact, hmem, hget, (hparts hresult).2⟩

/-! ### Both settings on the same output -/

section Agreement
variable (s : Settings) (file : FileCoverage)

theorem agrees_checkEntry (number : Value) (contract : String) (e : Entry) :
    (checkEntry s.strict file number contract file.lines.size e).Agrees
      (checkEntry s.lenient file number contract file.lines.size e) := by
  intro e' he'
  have hfits := ((checkEntry_eq_ok_iff e e').1 he').2 rfl
  unfold exceeds at hfits
  unfold checkEntry
  rw [hfits]
  rfl

theorem agrees_checkListing (number : Value) (contract : String) (l : Listing) :
    (checkListing s.strict file number contract l).Agrees
      (checkListing s.lenient file number contract l) := by
  unfold checkListing
  split
  · exact .refl _
  · exact (Logged.Agrees.mapM (agrees_checkEntry s file number contract) l.entries).bind
      fun entries => .refl _

theorem agrees_readContract (number : Value) (contract : String × Value) :
    (readContract s.strict file number contract).Agrees
      (readContract s.lenient file number contract) := by
  unfold readContract
  refine (Logged.Agrees.refl _).bind fun creation => ?_
  refine (Logged.Agrees.refl _).bind fun deployed => ?_
  refine (agrees_checkListing s file number _ creation).bind fun creation => ?_
  exact (agrees_checkListing s file number _ deployed).bind fun deployed => .refl _

theorem agrees_ingested (contracts source : Value) :
    (ingested s.strict file contracts source).Agrees
      (ingested s.lenient file contracts source) := by
  unfold ingested
  refine (Logged.Agrees.refl _).bind fun id => ?_
  refine (Logged.Agrees.refl _).bind fun outputs => ?_
  exact (Logged.Agrees.mapM (agrees_readContract s file _) outputs).bind fun artifacts => .refl _

theorem ingest_lenient_of_strict {contracts source : Value}
    (h : (file.ingest s.strict contracts source).result = .ok ()) :
    file.ingest s.lenient contracts source = file.ingest s.strict contracts source := by
  have hread := agrees_ingested s file contracts source _ (ingest_accepted_iff.1 h)
  unfold ingest
  rw [hread]

/-- Without a number the settings are not looked at. -/
theorem readContract_unnumbered {number : Value} (hnull : number.isNull = true) :
    readContract s.lenient file number = readContract s.strict file number := by
  unfold readContract checkListing
  simp only [hnull, if_true]

theorem ingest_unnumbered {contracts source : Value}
    (hnull : (file.numberWith source).isNull = true) :
    file.ingest s.lenient contracts source = file.ingest s.strict contracts source := by
  have hread : ingested s.lenient file contracts source =
      ingested s.strict file contracts source := by
    cases hid : CompilerOutput.sourceId (entryOf source) with
    | error fault =>
      rw [ingested_of_noFields _ _ _ hid, ingested_of_noFields _ _ _ hid]
    | ok id =>
      obtain ⟨fields, hentry, -⟩ := sourceId_eq_ok_iff.1 hid
      rw [ingested_of_entry _ _ _ hentry, ingested_of_entry _ _ _ hentry,
        readContract_unnumbered s file hnull]
  unfold ingest
  rw [hread]

end Agreement

/-- What strict and lenient settings make of the same output, where `number` is the one that the
file has by then and `size` its size. -/
structure ModesAgree (s : Settings) (file : FileCoverage) (contracts source number : Value)
    (size : Nat) : Prop where
  lenient : (file.ingest s.lenient contracts source).result = .ok () ↔
    file.Readable contracts source
  strict : (file.ingest s.strict contracts source).result = .ok () ↔
    file.Readable contracts source ∧ AllWithin number size contracts
  agree : (file.ingest s.strict contracts source).result = .ok () →
    file.ingest s.lenient contracts source = file.ingest s.strict contracts source
  trimmed : (file.ingest s.lenient contracts source).result = .ok () →
    file.TakenIn contracts source (Listing.Trimmed number size)
      (file.ingest s.lenient contracts source).state
  unnumbered : number.isNull = true →
    file.ingest s.lenient contracts source = file.ingest s.strict contracts source ∧
      ((file.ingest s.lenient contracts source).result = .ok () →
        file.TakenIn contracts source Eq (file.ingest s.lenient contracts source).state)

/-- **Strict and lenient settings agree.** Under lenient ones output is accepted exactly when it can
be read, and the listings are the decoded ones, with empty ranges in place of those of the file
that go beyond its end. Under strict ones there may be no such range, and then the outcome is the
same. As long as the file has no number the settings make no difference, and no range is
replaced. -/
theorem modes_agree (s : Settings) (file : FileCoverage) (contracts source : Value) :
    ModesAgree s file contracts source (file.numberWith source) file.text.toUTF8.size where
  lenient := (ingest_eq_ok_iff ..).trans (and_iff_left nofun)
  strict := (ingest_eq_ok_iff ..).trans (and_congr_right fun _ => forall_prop_of_true rfl)
  agree := ingest_lenient_of_strict s file
  trimmed := takenIn_of_ok (trimmed_fit file _)
  unnumbered hnull := by
    refine ⟨ingest_unnumbered s file hnull, takenIn_of_ok fun l => ?_⟩
    rw [fit, if_pos hnull]

end FileCoverage

end ContractCoverage
