import ContractCoverage.File.Ingest
import ContractCoverage.Proofs.Coverage.Counts
import ContractCoverage.Proofs.Data.Chain

/-! Ingestion, all or nothing.

Whatever can fail, at any contract and in the syntax tree, comes before the first
change to the file (`ingested_eq_ok_iff`). So a file is left as it was, or the output has
been read to its end: the listings of every contract that it names are new, unmarked and
made of the texts in the output (`Reads`), the other contracts keep theirs, and the
running total lists what it listed with the same counts (`Fragment.KeptIn`). -/
namespace ContractCoverage

namespace Fragment

/-! ### Counters that are kept -/

/-- The counters of a fragment have the same values in another one. A branch may have more arms
there, without hits. -/
structure KeptIn (a b : Fragment) : Prop where
  statements : ∀ k n, a.statements.get? k = some n → b.statements.get? k = some n
  functions : ∀ k n, a.functions.get? k = some n → b.functions.get? k = some n
  lines : ∀ k n, a.lines.get? k = some n → b.lines.get? k = some n
  branches : ∀ k counts, a.branches.get? k = some counts →
    ∃ more, b.branches.get? k = some (counts ++ List.replicate more 0)

theorem KeptIn.refl (f : Fragment) : f.KeptIn f where
  statements _ _ h := h
  functions _ _ h := h
  lines _ _ h := h
  branches _ counts h := ⟨0, by rw [h, List.replicate_zero, List.append_nil]⟩

theorem get?_addCounters_zeros {counters : KeyedList Ident Int} {keys : List Ident} {k : Ident}
    {n : Int} (h : counters.get? k = some n) :
    (addCounters counters (RangeTable.zeros keys)).get? k = some n := by
  rw [get?_addCounters, h]
  cases hz : (RangeTable.zeros keys).get? k with
  | none => rfl
  | some z =>
    rw [get?_zeros hz]
    exact congrArg some (Int.add_zero n)

/-- Listing everything with zero hits keeps all counters. -/
theorem keptIn_merge_initial (total : Fragment) (table : RangeTable) (path : Option String) :
    total.KeptIn (total.merge (table.initial path)) where
  statements _ _ h := get?_addCounters_zeros h
  functions _ _ h := get?_addCounters_zeros h
  lines _ _ h := get?_addCounters_zeros h
  branches k counts h := by
    show ∃ more, (addBranches total.branches (table.branches.map fun branch =>
      List.replicate branch.1.toNat (0 : Int))).get? k = some (counts ++ List.replicate more 0)
    rw [get?_addBranches, h, KeyedList.get?_map]
    cases table.branches.get? k with
    | none => exact ⟨0, by rw [List.replicate_zero, List.append_nil]; rfl⟩
    | some branch => exact ⟨_, congrArg some (addCounts_replicate_zero counts branch.1.toNat)⟩

end Fragment

/-- The entries of a listing made of instructions and ranges have no marks. -/
theorem Listing.unseen_pair (is : List Instruction) (rs : List Range) :
    ∀ e ∈ pair is rs, e.seen = false := by
  induction is generalizing rs with
  | nil => exact fun e he => absurd he List.not_mem_nil
  | cons i is ih =>
    cases rs with
    | nil => exact List.forall_mem_cons.2 ⟨rfl, ih []⟩
    | cons r rs => exact List.forall_mem_cons.2 ⟨rfl, ih rs⟩

namespace CompilerOutput

/-- The source entry of a file; one that says nothing has no fields. -/
def entryOf (source : Value) : Value := if source.isVoid then .object [] else source

theorem entryOf_object (fields : List (String × Value)) :
    entryOf (.object fields) = .object fields := by
  cases fields <;> rfl

theorem sourceId_eq_ok_iff {v id : Value} :
    sourceId v = .ok id ↔ ∃ fields, v = .object fields ∧ id = (fields.lookup "id").getD .null := by
  cases v with
  | object fields =>
    constructor
    · intro h
      cases h
      exact ⟨fields, rfl, rfl⟩
    · rintro ⟨_, ⟨⟩, rfl⟩
      rfl
  | _ => exact ⟨nofun, fun ⟨_, h, _⟩ => by cases h⟩

/-- A source entry that has fields may have a syntax tree among them or not. -/
theorem exists_sourceTree (fields : List (String × Value)) :
    ∃ tree, sourceTree (.object fields) = .ok tree := by
  simp only [sourceTree, Value.contains_object, ok_bind, Value.field]
  cases fields.lookup "ast" with
  | some tree => exact ⟨some tree, rfl⟩
  | none =>
    cases fields.lookup "legacyAST" with
    | some tree => exact ⟨some tree, rfl⟩
    | none => exact ⟨none, rfl⟩

end CompilerOutput

namespace FileCoverage
open CompilerOutput

/-! ### Listings that are read -/

/-- Whether the range of an instruction is one of the file of that number and goes beyond its
end. -/
def exceeds (file : FileCoverage) (sourceId : Value) (e : Entry) : Bool :=
  e.range.isOwn sourceId && e.range.stop?.any fun stop => (file.lines.size : Int) < stop

/-- An instruction without a range that lies beyond the end of the file. -/
def fitEntry (file : FileCoverage) (sourceId : Value) (e : Entry) : Entry :=
  if file.exceeds sourceId e then { e with range := .empty } else e

/-- A listing without such ranges. None is known as long as the number of the file is not. -/
def fit (file : FileCoverage) (sourceId : Value) (l : Listing) : Listing :=
  if sourceId.isNull then l else { l with entries := l.entries.map (file.fitEntry sourceId) }

/-- A listing is what the texts in the output of a contract stand for. -/
def Reads (file : FileCoverage) (sourceId : Value) (contract : String × Value) (part : CodePart)
    (l : Listing) : Prop :=
  ∃ code map whole, CompilerOutput.codeTexts contract.1 contract.2 part = .ok (code, map) ∧
    Listing.ofText code map = .ok whole ∧ l = file.fit sourceId whole

/-- The range of an instruction passes, made to fit, unless it goes beyond the end of the file and
settings are strict. -/
theorem checkEntry_eq_ok_iff {s : Settings} {file : FileCoverage} {sourceId : Value}
    {contract : String} (e e' : Entry) :
    (checkEntry s file sourceId contract file.lines.size e).result = .ok e' ↔
      e' = file.fitEntry sourceId e ∧
        (s.strictRanges = true → file.exceeds sourceId e = false) := by
  unfold checkEntry fitEntry
  rw [← exceeds]
  cases file.exceeds sourceId e with
  | false =>
    constructor
    · intro h
      cases h
      exact ⟨rfl, fun _ => rfl⟩
    · rintro ⟨rfl, -⟩
      rfl
  | true =>
    cases s.strictRanges with
    | false =>
      constructor
      · intro h
        cases h
        exact ⟨rfl, nofun⟩
      · rintro ⟨rfl, -⟩
        rfl
    | true => exact ⟨nofun, fun h => absurd (h.2 rfl) nofun⟩

/-- The ranges of a listing pass, made to fit, unless the number of the file is known, one of them
goes beyond the end of the file and settings are strict. -/
theorem checkListing_eq_ok_iff {s : Settings} {file : FileCoverage} {sourceId : Value}
    {contract : String} {l l' : Listing} :
    (checkListing s file sourceId contract l).result = .ok l' ↔
      l' = file.fit sourceId l ∧ (s.strictRanges = true → sourceId.isNull = false →
        ∀ e ∈ l.entries, file.exceeds sourceId e = false) := by
  unfold checkListing fit
  cases sourceId.isNull with
  | true =>
    simp only [if_true, Logged.result_pure, Except.ok.injEq]
    exact ⟨fun h => ⟨h.symm, nofun⟩, fun h => h.1.symm⟩
  | false =>
    simp only [Bool.false_eq_true, if_false, Logged.result_bind, Logged.result_mapM,
      bind_eq_ok_iff, mapM_eq_ok_iff_map checkEntry_eq_ok_iff]
    constructor
    · rintro ⟨entries, ⟨rfl, hfits⟩, h⟩
      cases h
      exact ⟨rfl, fun hstrict _ e he => hfits e he hstrict⟩
    · rintro ⟨rfl, hfits⟩
      exact ⟨_, ⟨rfl, fun e he hstrict => hfits hstrict trivial e he⟩, rfl⟩

/-- A listing is made of two texts, once they have been found. -/
theorem result_listing (name : String) (output : Value) (part : CodePart) :
    (CompilerOutput.listing name output part).result =
      (CompilerOutput.codeTexts name output part).mapError Fault.compiler >>= fun texts =>
        Listing.ofText texts.1 texts.2 := by
  rw [CompilerOutput.listing, Logged.result_bind]
  show (CompilerOutput.codeTexts name output part).mapError Fault.compiler >>= _ = _
  congr 1
  funext texts
  exact Listing.result_disassemble texts.1 texts.2

theorem listing_of_ok {name : String} {output : Value} {part : CodePart} {l : Listing}
    (h : (CompilerOutput.listing name output part).result = .ok l) :
    ∃ code map, CompilerOutput.codeTexts name output part = .ok (code, map) ∧
      Listing.ofText code map = .ok l := by
  rw [result_listing, bind_eq_ok_iff] at h
  obtain ⟨⟨code, map⟩, htexts, hl⟩ := h
  exact ⟨code, map, mapError_eq_ok_iff.1 htexts, hl⟩

/-- A contract can be read when both its listings can, and their ranges pass. -/
theorem readContract_eq_ok_iff {s : Settings} {file : FileCoverage} {sourceId : Value}
    {contract : String × Value} {found : String × Artifact} :
    (readContract s file sourceId contract).result = .ok found ↔
      found.1 = contract.1 ∧ ∀ part, ∃ whole,
        (CompilerOutput.listing contract.1 contract.2 part).result = .ok whole ∧
        (checkListing s file sourceId contract.1 whole).result = .ok (found.2.part part) := by
  unfold readContract
  simp only [Logged.result_bind, bind_eq_ok_iff]
  constructor
  · rintro ⟨creation, hcreation, deployed, hdeployed, _, hfitc, _, hfitd, _, -, h⟩
    cases h
    refine ⟨rfl, fun part => ?_⟩
    cases part with
    | creation => exact ⟨creation, hcreation, hfitc⟩
    | deployed => exact ⟨deployed, hdeployed, hfitd⟩
  · rintro ⟨hname, hparts⟩
    obtain ⟨creation, hcreation, hfitc⟩ := hparts .creation
    obtain ⟨deployed, hdeployed, hfitd⟩ := hparts .deployed
    refine ⟨creation, hcreation, deployed, hdeployed, _, hfitc, _, hfitd, (), rfl, ?_⟩
    rw [← hname]
    rfl

/-- A contract that is read keeps its name and has both its listings from its output. -/
theorem readContract_of_ok {s : Settings} {file : FileCoverage} {sourceId : Value}
    {contract : String × Value} {found : String × Artifact}
    (h : (readContract s file sourceId contract).result = .ok found) :
    found.1 = contract.1 ∧ ∀ part, Reads file sourceId contract part (found.2.part part) := by
  obtain ⟨hname, hparts⟩ := readContract_eq_ok_iff.1 h
  refine ⟨hname, fun part => ?_⟩
  obtain ⟨whole, hwhole, hcheck⟩ := hparts part
  obtain ⟨code, map, htexts, hread⟩ := listing_of_ok hwhole
  exact ⟨code, map, whole, htexts, hread, (checkListing_eq_ok_iff.1 hcheck).1⟩

/-- A listing that has just been read has no marks. -/
theorem unseen_of_reads {file : FileCoverage} {sourceId : Value} {contract : String × Value}
    {part : CodePart} {l : Listing} (h : Reads file sourceId contract part l) :
    ∀ e ∈ l.entries, e.seen = false := by
  obtain ⟨code, map, whole, -, hwhole, rfl⟩ := h
  have hunseen : ∀ e ∈ whole.entries, e.seen = false := by
    unfold Listing.ofText at hwhole
    cases ht : Listing.readTexts code map with
    | error fault =>
      rw [ht] at hwhole
      cases hwhole
    | ok texts =>
      rw [ht] at hwhole
      cases hwhole
      exact Listing.unseen_pair _ _
  unfold fit
  split
  · exact hunseen
  · intro e he
    obtain ⟨old, hold, rfl⟩ := List.mem_map.1 he
    have hseen : (file.fitEntry sourceId old).seen = old.seen := by
      unfold fitEntry
      split <;> rfl
    rw [hseen]
    exact hunseen old hold

/-! ### The source entry -/

/-- The syntax tree in a source entry, which may say nothing. -/
def treeOf (source : Value) : Except ShapeFault (Option Value) :=
  CompilerOutput.sourceTree (if source.isVoid then .object [] else source)

/-- The number that a file has when it takes in a source entry. -/
def numberIn (file : FileCoverage) (source : List (String × Value)) : Value :=
  let id := (source.lookup "id").getD .null
  if id.isNull then file.sourceId else id

/-- The number that a file has when it takes in a source entry: the one in it, or else its own. -/
def numberWith (file : FileCoverage) (source : Value) : Value :=
  match CompilerOutput.entryOf source with
  | .object fields => file.numberIn fields
  | _ => file.sourceId

theorem numberWith_of_entry {source : Value} {fields : List (String × Value)}
    (hentry : CompilerOutput.entryOf source = .object fields) (file : FileCoverage) :
    file.numberWith source = file.numberIn fields := by
  rw [numberWith, hentry]

/-- The table that a source entry brings: the one of its syntax tree, where that may take the place
of the table before. -/
def treeTable? (file : FileCoverage) (source : Value) : Option RangeTable :=
  match treeOf source, file.resolver.isReplaceable with
  | .ok (some tree), true => (Tree.index file.lines tree).toOption
  | _, _ => none

theorem index_of_treeTable {file : FileCoverage} {source : Value} {t : RangeTable}
    (h : file.treeTable? source = some t) : ∃ tree, treeOf source = .ok (some tree) ∧
      file.resolver.isReplaceable = true ∧ Tree.index file.lines tree = .ok t := by
  unfold treeTable? at h
  split at h
  · next tree htree hreplaceable =>
    refine ⟨tree, htree, hreplaceable, ?_⟩
    cases hindex : Tree.index file.lines tree with
    | error fault =>
      rw [hindex] at h
      cases h
    | ok found =>
      rw [hindex] at h
      cases h
      rfl
  · cases h

/-- A syntax tree is read by indexing it. -/
theorem result_readTree (file : FileCoverage) (tree : Value) :
    (readTree file tree).result = (Tree.index file.lines tree).mapError file.treeFault := by
  rw [readTree, Logged.result_bind]
  cases Tree.index file.lines tree <;> rfl

theorem result_some_readTree (file : FileCoverage) (tree : Value) :
    (some <$> readTree file tree : Logged (Option RangeTable)).result =
      (readTree file tree).result >>= fun table => .ok (some table) :=
  Logged.result_bind ..

/-- A source entry can be read when its syntax tree, where one comes and may bring a table, can be
indexed. -/
theorem readResolver_eq_ok_iff {file : FileCoverage} {source : Value} {tree : Option Value}
    {table : Option RangeTable} (htree : treeOf source = .ok tree) :
    (readResolver file tree).result = .ok table ↔ table = file.treeTable? source ∧
      ∀ found, tree = some found → file.resolver.isReplaceable = true →
        ∃ t, Tree.index file.lines found = .ok t := by
  unfold readResolver treeTable?
  rw [htree]
  cases tree with
  | none =>
    constructor
    · intro h
      cases h
      exact ⟨rfl, nofun⟩
    · rintro ⟨rfl, -⟩
      rfl
  | some found =>
    cases file.resolver.isReplaceable with
    | false =>
      constructor
      · intro h
        cases h
        exact ⟨rfl, nofun⟩
      · rintro ⟨rfl, -⟩
        rfl
    | true =>
      simp only [result_some_readTree, result_readTree]
      cases hindex : Tree.index file.lines found with
      | error fault =>
        refine ⟨nofun, fun h => ?_⟩
        obtain ⟨t, ht⟩ := h.2 found rfl trivial
        cases hindex.symm.trans ht
      | ok t =>
        constructor
        · intro h
          cases h
          refine ⟨rfl, ?_⟩
          rintro _ ⟨⟩ -
          exact ⟨t, hindex⟩
        · rintro ⟨rfl, -⟩
          rfl

/-! ### Output that is read -/

theorem contractList_eq_ok_iff {contracts : Value} {outputs : List (String × Value)} :
    contractList contracts = .ok outputs ↔ contracts = .object outputs := by
  cases contracts with
  | object fields => exact ⟨fun h => by cases h; rfl, fun h => by cases h; rfl⟩
  | _ => exact ⟨nofun, nofun⟩

/-- What is read of output whose source entry has fields. -/
theorem ingested_of_entry (s : Settings) (file : FileCoverage) (contracts : Value) {source : Value}
    {fields : List (String × Value)} (hentry : entryOf source = .object fields) :
    ingested s file contracts source = (do
      let outputs ← (contractList contracts : Except Fault _)
      let artifacts ← outputs.mapM (readContract s file (file.numberWith source))
      let tree ← (sourceTree (.object fields) : Except Fault _)
      let table ← readResolver file tree
      return file.install (file.numberWith source) artifacts table) := by
  unfold ingested numberWith
  rw [← entryOf, hentry]
  rfl

/-- A source entry that has no fields is refused before anything is read. -/
theorem ingested_of_noFields (s : Settings) (file : FileCoverage) (contracts : Value)
    {source : Value} {fault : ShapeFault}
    (hid : CompilerOutput.sourceId (entryOf source) = .error fault) :
    ingested s file contracts source = .fail (.shape fault) := by
  unfold ingested
  rw [← entryOf]
  simp only [hid]
  rfl

/-- Output is taken in when its parts are read, in this order, and then all is installed. -/
theorem ingested_eq_ok_iff {s : Settings} {file file' : FileCoverage} {contracts source : Value} :
    (ingested s file contracts source).result = .ok file' ↔
      ∃ outputs artifacts, contracts = .object outputs ∧
        outputs.mapM (fun contract =>
          (readContract s file (file.numberWith source) contract).result) = .ok artifacts ∧
        (∃ fields, entryOf source = .object fields) ∧
        (∀ tree, treeOf source = .ok (some tree) → file.resolver.isReplaceable = true →
          ∃ table, Tree.index file.lines tree = .ok table) ∧
        file' = file.install (file.numberWith source) artifacts (file.treeTable? source) := by
  cases hid : CompilerOutput.sourceId (entryOf source) with
  | error fault =>
    refine ⟨fun h => ?_, fun ⟨_, _, _, _, ⟨fields, hentry⟩, _⟩ => ?_⟩
    · rw [ingested_of_noFields s file contracts hid] at h
      cases h
    · rw [hentry] at hid
      cases hid
  | ok id =>
    obtain ⟨fields, hentry, -⟩ := sourceId_eq_ok_iff.1 hid
    obtain ⟨tree, htree⟩ := exists_sourceTree fields
    have hsource : treeOf source = .ok tree := by rw [treeOf, ← entryOf, hentry, htree]
    rw [ingested_of_entry s file contracts hentry, htree]
    simp only [Logged.result_bind, Logged.result_mapM, bind_eq_ok_iff]
    constructor
    · rintro ⟨outputs, houtputs, artifacts, hartifacts, _, ⟨⟩, table, htable, h⟩
      obtain ⟨rfl, hindex⟩ := (readResolver_eq_ok_iff hsource).1 htable
      cases h
      refine ⟨outputs, artifacts, contractList_eq_ok_iff.1 (eq_ok_of_lift houtputs), hartifacts,
        ⟨fields, hentry⟩, fun found hfound => hindex found ?_, rfl⟩
      exact Except.ok.inj (hsource.symm.trans hfound)
    · rintro ⟨outputs, artifacts, rfl, hartifacts, -, hindex, rfl⟩
      refine ⟨outputs, rfl, artifacts, hartifacts, tree, rfl, file.treeTable? source, ?_, rfl⟩
      exact (readResolver_eq_ok_iff hsource).2
        ⟨rfl, fun found hfound => hindex found (hsource.trans (congrArg Except.ok hfound))⟩

/-- Output is accepted when it has been read to its end, and then the file is what has been read. -/
theorem ingest_accepted_iff {s : Settings} {file : FileCoverage} {contracts source : Value} :
    (file.ingest s contracts source).result = .ok () ↔
      (ingested s file contracts source).result =
        .ok (file.ingest s contracts source).state := by
  unfold ingest
  dsimp only
  cases (ingested s file contracts source).result with
  | error fault => exact iff_of_false nofun nofun
  | ok file' => exact iff_of_true rfl rfl

/-! ### Installing what has been read -/

/-- What is installed, part by part. -/
theorem install_eq (file : FileCoverage) (sourceId : Value) (artifacts : List (String × Artifact))
    (table : Option RangeTable) :
    file.install sourceId artifacts table =
      { file with
        sourceId
        tables := some (artifacts.foldl (fun t (found : String × Artifact) =>
          t.insert found.1 found.2) (file.tables.getD .empty))
        resolver := table.elim file.resolver .derived
        coverage := table.elim file.coverage fun found =>
          file.coverage.merge (found.initial (some file.path)) } := by
  cases table <;> rfl

/-- The listings of a contract, where a file has them. -/
def artifact? (file : FileCoverage) (name : String) : Option Artifact :=
  file.tables.bind (·.get? name)

theorem artifact?_install (file : FileCoverage) (sourceId : Value)
    (artifacts : List (String × Artifact)) (table : Option RangeTable) (name : String) :
    (∃ found ∈ artifacts, found.1 = name ∧
        (file.install sourceId artifacts table).artifact? name = some found.2) ∨
      (∀ found ∈ artifacts, found.1 ≠ name) ∧
        (file.install sourceId artifacts table).artifact? name = file.artifact? name := by
  have hinstall : (file.install sourceId artifacts table).artifact? name =
      (artifacts.foldl (fun t (found : String × Artifact) => t.insert found.1 found.2)
        (file.tables.getD .empty)).get? name := by
    rw [install_eq]
    rfl
  have hbefore : (file.tables.getD .empty).get? name = file.artifact? name := by
    rw [artifact?]
    cases file.tables <;> rfl
  rw [hinstall, ← hbefore]
  rcases KeyedList.get?_foldl_insert (file.tables.getD .empty) artifacts name with
    ⟨found, hfound, hname, hget⟩ | ⟨hnone, hget⟩
  · exact .inl ⟨found, hfound, beq_iff_eq.1 hname, hget⟩
  · refine .inr ⟨fun found hfound hname => ?_, hget⟩
    have hne := hnone found hfound
    rw [hname, BEq.rfl] at hne
    cases hne

/-- When contracts have been read, each under its name, the file has a listing that was read for
every name among them, and its own for the others. -/
theorem artifact?_of_mapM {read : String × Value → Except Fault (String × Artifact)}
    (hname : ∀ contract found, read contract = .ok found → found.1 = contract.1)
    {outputs : List (String × Value)} {artifacts : List (String × Artifact)}
    (hread : outputs.mapM read = .ok artifacts) (file : FileCoverage) (sourceId : Value)
    (table : Option RangeTable) :
    (∀ name ∈ outputs.map (·.1), ∃ output artifact, (name, output) ∈ outputs ∧
        (file.install sourceId artifacts table).artifact? name = some artifact ∧
        read (name, output) = .ok (name, artifact)) ∧
      ∀ name, name ∉ outputs.map (·.1) →
        (file.install sourceId artifacts table).artifact? name = file.artifact? name := by
  obtain ⟨hevery, honly⟩ := mem_of_mapM hread
  constructor
  · intro name hmem
    obtain ⟨contract, hcontract, rfl⟩ := List.mem_map.1 hmem
    rcases artifact?_install file sourceId artifacts table contract.1 with
      ⟨⟨found, artifact⟩, hfound, hnamed, hget⟩ | ⟨hnone, -⟩
    · obtain rfl : found = contract.1 := hnamed
      obtain ⟨⟨other, output⟩, hother, hresult⟩ := honly _ hfound
      obtain rfl : contract.1 = other := hname _ _ hresult
      exact ⟨output, artifact, hother, hget, hresult⟩
    · obtain ⟨found, hfound, hresult⟩ := hevery contract hcontract
      exact absurd (hname _ _ hresult) (hnone found hfound)
  · intro name hmem
    rcases artifact?_install file sourceId artifacts table name with
      ⟨found, hfound, hnamed, -⟩ | ⟨-, hget⟩
    · obtain ⟨contract, hcontract, hresult⟩ := honly found hfound
      refine absurd (List.mem_map.2 ⟨contract, hcontract, ?_⟩) hmem
      exact (hname _ _ hresult).symm.trans hnamed
    · exact hget

theorem keptIn_install (file : FileCoverage) (sourceId : Value)
    (artifacts : List (String × Artifact)) (table : Option RangeTable) :
    file.coverage.KeptIn (file.install sourceId artifacts table).coverage := by
  cases table with
  | none => exact .refl _
  | some table => exact Fragment.keptIn_merge_initial ..

/-- What taking in the outputs of contracts makes of a file: they have new listings, the other
contracts keep theirs, and no counter changes. -/
structure Replaced (outputs : List (String × Value)) (file file' : FileCoverage) : Prop where
  named : ∀ name ∈ outputs.map (·.1), ∃ output artifact, (name, output) ∈ outputs ∧
    file'.artifact? name = some artifact ∧
    ∀ part, Reads file file'.sourceId (name, output) part (artifact.part part) ∧
      ∀ e ∈ (artifact.part part).entries, e.seen = false
  others : ∀ name, name ∉ outputs.map (·.1) → file'.artifact? name = file.artifact? name
  counters : file.coverage.KeptIn file'.coverage

theorem replaced_of_ingested {s : Settings} {file file' : FileCoverage} {contracts source : Value}
    (h : (ingested s file contracts source).result = .ok file') :
    ∃ outputs, contracts = .object outputs ∧ Replaced outputs file file' := by
  obtain ⟨outputs, artifacts, hobject, hread, -, -, rfl⟩ := ingested_eq_ok_iff.1 h
  generalize file.numberWith source = sourceId at hread ⊢
  generalize file.treeTable? source = table
  have hsource : (file.install sourceId artifacts table).sourceId = sourceId := by rw [install_eq]
  obtain ⟨hnamed, hothers⟩ :=
    artifact?_of_mapM (fun _ _ h => (readContract_of_ok h).1) hread file sourceId table
  refine ⟨outputs, hobject, fun name hname => ?_, hothers, keptIn_install ..⟩
  obtain ⟨output, artifact, hmem, hget, hresult⟩ := hnamed name hname
  obtain ⟨-, hreads⟩ := readContract_of_ok hresult
  refine ⟨output, artifact, hmem, hget, fun part => ?_⟩
  rw [hsource]
  exact ⟨hreads part, unseen_of_reads (hreads part)⟩

/-- **All or nothing.** Compiler output that is refused, for whatever reason, leaves the file as it
was. Output that is taken in replaces both listings of every contract that it names by new ones
without marks, and changes neither the listings of other contracts nor any counter. -/
theorem ingest_allOrNothing (s : Settings) (file : FileCoverage) (contracts source : Value) :
    match (file.ingest s contracts source).result with
    | .error _ => (file.ingest s contracts source).state = file
    | .ok () => ∃ outputs, contracts = .object outputs ∧
        Replaced outputs file (file.ingest s contracts source).state := by
  cases h : (ingested s file contracts source).result with
  | error fault => simp only [ingest, h]
  | ok file' =>
    simp only [ingest, h]
    exact replaced_of_ingested h

end FileCoverage

end ContractCoverage
