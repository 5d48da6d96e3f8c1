import ContractCoverage.Proofs.File.Commands

/-! Where the total of a file says that things are.

A table says of statements, functions and branches where they are, and the maps of a total
take this over when the table comes in. Where two tables use one identifier, what the first
one said of it stays, whatever the later one says (`performAll_places`). So the maps describe
the table that is in use exactly when every place that it gives is the first one given for
its identifier. The nodes of a changed program may have the identifiers of others, and then
hits are counted in one place and reported in another (`not_describes_moved`). -/
namespace ContractCoverage

/-! ### Places of an identifier -/

/-- What is said of where the statement, the function and the branch of an identifier are. -/
@[ext] structure Places where
  statement : Option Span := none
  function : Option FunctionInfo := none
  branch : Option BranchInfo := none

namespace Places

/-- What is said first, and where nothing is, what is said second. -/
def or (a b : Places) : Places :=
  ⟨a.statement.or b.statement, a.function.or b.function, a.branch.or b.branch⟩

/-- Everything that is said is also said by another one. -/
structure SaidBy (a b : Places) : Prop where
  statement : ∀ span, a.statement = some span → b.statement = some span
  function : ∀ info, a.function = some info → b.function = some info
  branch : ∀ info, a.branch = some info → b.branch = some info

theorem SaidBy.refl (a : Places) : a.SaidBy a := ⟨fun _ => id, fun _ => id, fun _ => id⟩

end Places

/-- What the maps of a fragment say of an identifier. -/
def Fragment.places (f : Fragment) (id : Ident) : Places :=
  ⟨f.statementMap.get? id, f.functionMap.get? id, f.branchMap.get? id⟩

/-- What a table says of an identifier. -/
def RangeTable.places (t : RangeTable) (id : Ident) : Places :=
  ⟨(t.statements.get? id).join, (t.functions.get? id).join,
    ((t.branches.get? id).map (·.2)).join⟩

/-- The maps of a fragment say of every identifier what a table says of it. -/
def Fragment.Describes (f : Fragment) (t : RangeTable) : Prop :=
  ∀ id, (t.places id).SaidBy (f.places id)

/-- What the first of the tables that says anything of an identifier says of it. -/
def firstPlaces (tables : List RangeTable) (id : Ident) : Places where
  statement := tables.findSome? fun t => (t.places id).statement
  function := tables.findSome? fun t => (t.places id).function
  branch := tables.findSome? fun t => (t.places id).branch

theorem firstPlaces_append (tables later : List RangeTable) (id : Ident) :
    firstPlaces (tables ++ later) id = (firstPlaces tables id).or (firstPlaces later id) :=
  Places.ext List.findSome?_append List.findSome?_append List.findSome?_append

theorem firstPlaces_singleton (t : RangeTable) (id : Ident) : firstPlaces [t] id = t.places id :=
  Places.ext List.findSome?_singleton List.findSome?_singleton List.findSome?_singleton

/-! ### Maps of fragments -/

theorem Fragment.get?_union {ν : Type} (a b : KeyedList Ident ν) (id : Ident) :
    (union a b).get? id = (a.get? id).or (b.get? id) := by
  have hmerge : (union a b).get? id = (b.get? id).merge (fun _ v => v) (a.get? id) :=
    KeyedList.get?_mergeWith (fun _ => rfl) (fun _ _ => rfl) b a id
  rw [hmerge]
  cases a.get? id <;> cases b.get? id <;> rfl

theorem Fragment.places_merge (f g : Fragment) (id : Ident) :
    (f.merge g).places id = (f.places id).or (g.places id) :=
  Places.ext (get?_union ..) (get?_union ..) (get?_union ..)

/-- The values that are there are found under their keys. -/
theorem RangeTable.get?_known {ν : Type} (m : KeyedList Ident (Option ν)) (id : Ident) :
    (known m).get? id = (m.get? id).join := by
  have hdistinct : (m.entries.filterMap fun e => e.2.map (e.1, ·)).Pairwise
      fun a b => (a.1 == b.1) = false := by
    refine m.distinct.filterMap _ fun a b hab a' ha b' hb => ?_
    obtain ⟨_, -, rfl⟩ := Option.map_eq_some_iff.1 ha
    obtain ⟨_, -, rfl⟩ := Option.map_eq_some_iff.1 hb
    exact hab
  have hentries : (known m).entries = m.entries.filterMap fun e => e.2.map (e.1, ·) :=
    KeyedList.entries_ofList hdistinct
  show KeyedList.findEntry id (known m).entries = (KeyedList.findEntry id m.entries).join
  rw [hentries, KeyedList.findEntry_filterMap m.distinct]

theorem RangeTable.places_initial (t : RangeTable) (path : Option String) (id : Ident) :
    (t.initial path).places id = t.places id := by
  refine Places.ext (get?_known ..) (get?_known ..) ?_
  show (known (t.branches.map (·.2))).get? id = ((t.branches.get? id).map (·.2)).join
  rw [get?_known, KeyedList.get?_map]

namespace FileCoverage

/-! ### Runs -/

/-- The table in use is one of those that have come in, and the total says what they said first. -/
structure Recounts (resolver : Resolver) (total : Fragment) (tables : List RangeTable) : Prop where
  current : ∀ t, resolver.table? = some t → t ∈ tables
  places : ∀ id, total.places id = firstPlaces tables id

theorem Effect.recounts {file : FileCoverage} {brought : Option RangeTable} {resolver : Resolver}
    {total : Fragment} {tables : List RangeTable} (h : Effect file brought resolver total)
    (hfile : Recounts file.resolver file.coverage tables) :
    Recounts resolver total (tables ++ brought.toList) := by
  cases h with
  | kept => rwa [Option.toList_none, List.append_nil]
  | @recorded s trace added hadded =>
    rw [Option.toList_none, List.append_nil]
    refine ⟨hfile.current, fun id => ?_⟩
    have hadds : added.SamePlaces { path := some file.path } := Fragment.samePlaces_hitAll hadded
    have hsame := Fragment.samePlaces_merge file.coverage
      (hadds.trans ⟨rfl, rfl, rfl⟩ : added.SamePlaces {})
    rw [← hfile.places, Fragment.places, hsame.statements, hsame.functions, hsame.branches]
    rfl
  | @listed table resolver hresolver =>
    refine ⟨fun t ht => ?_, fun id => ?_⟩
    · obtain rfl : table = t := Option.some.inj (hresolver.symm.trans ht)
      exact List.mem_append_right _ (List.mem_singleton_self _)
    · rw [Fragment.places_merge, RangeTable.places_initial, hfile.places, firstPlaces_append,
        Option.toList_some, firstPlaces_singleton]

theorem recounts_performAll {file : FileCoverage} {tables : List RangeTable}
    (h : Recounts file.resolver file.coverage tables) (commands : List Command) :
    Recounts (file.performAll commands).resolver (file.performAll commands).coverage
      (tables ++ file.brought commands) :=
  performAll_keeps (P := fun file tables => Recounts file.resolver file.coverage tables) h
    fun c _ file _ hfile => (perform_effect file c).recounts hfile

theorem recounts_new (name path text : String) (given : Option RangeTable) :
    Recounts (new name path text given).resolver (new name path text given).coverage
      given.toList := by
  cases given with
  | none => exact ⟨nofun, fun _ => rfl⟩
  | some table =>
    have hnone : Recounts (new name path text).resolver (new name path text).coverage [] :=
      ⟨nofun, fun _ => rfl⟩
    exact (perform_effect (new name path text) (.setResolver table)).recounts hnone

/-- **The first place stays.** Whatever tables have come into a file, the maps of its total hold
what the first of them says of each identifier that says anything of it. So they describe the
table in use exactly when whatever that says of an identifier is what was said first. -/
theorem performAll_places (name path text : String) (given : Option RangeTable)
    (commands : List Command) :
    let file := (new name path text given).performAll commands
    let tables := given.toList ++ (new name path text given).brought commands
    (∀ id, file.coverage.places id = firstPlaces tables id) ∧
      ∀ t, file.resolver.table? = some t → t ∈ tables ∧
        (file.coverage.Describes t ↔ ∀ id, (t.places id).SaidBy (firstPlaces tables id)) := by
  intro file tables
  obtain ⟨hcurrent, hplaces⟩ := recounts_performAll (recounts_new name path text given) commands
  refine ⟨hplaces, fun t ht => ⟨hcurrent t ht, ?_⟩⟩
  exact forall_congr' fun id => by rw [hplaces id]

/-- A table with one statement on the first line. -/
def oneStatement : RangeTable :=
  (RangeTable.empty.add (.statement (.ofInt 1) (.entry "0:2:0".toList)
    (some ⟨⟨1, 0⟩, ⟨1, 2⟩⟩))).1

/-- The maps describe a table when no other one has come in. -/
theorem describes_oneStatement :
    let file := (new "a.sol" "a.sol" "a;\n").performAll [.setResolver oneStatement]
    file.resolver.table? = some oneStatement ∧ file.coverage.Describes oneStatement ∧
      (file.coverage.places (.ofInt 1)).statement = some ⟨⟨1, 0⟩, ⟨1, 2⟩⟩ := by
  intro file
  have hplaces := performAll_places "a.sol" "a.sol" "a;\n" none [.setResolver oneStatement]
  refine ⟨rfl, (hplaces.2 oneStatement rfl).2.2 fun id => ?_, by decide +kernel⟩
  show (oneStatement.places id).SaidBy (firstPlaces [oneStatement] id)
  rw [firstPlaces_singleton]
  exact .refl _

/-- A file with the tree of a statement on its first line, and then with the tree and the code of a
statement on its second line, under the same identifier, which is executed once. -/
def movedStatement : List Command :=
  [.act (.ingest {} (.object [])
      (.object [("id", .int 0), ("ast", Tree.leaf "ExpressionStatement" 1 "0:2:0")])),
    .act (.ingest {} (oneContract "3:2:0")
      (.object [("id", .int 0), ("ast", Tree.leaf "ExpressionStatement" 1 "3:2:0")])),
    .act (.record {} (callOf [0]))]

/-- **A hit on the second line is reported on the first.** The table in use has the statement on the
second line and the hit is counted there, but the map still has the first line for it. -/
theorem not_describes_moved :
    let file := (new "a.sol" "a.sol" "a;\nb;\n").performAll movedStatement
    (∃ table, file.resolver.table? = some table ∧ ¬ file.coverage.Describes table) ∧
      file.coverage.lines.get? (.ofInt 2) = some 1 ∧
      (file.coverage.places (.ofInt 1)).statement = some ⟨⟨1, 0⟩, ⟨1, 2⟩⟩ := by
  intro file
  have hmap : (file.coverage.places (.ofInt 1)).statement = some ⟨⟨1, 0⟩, ⟨1, 2⟩⟩ := by
    decide +kernel
  have hmoved : (file.resolver.table?.any fun table =>
      decide ((table.places (.ofInt 1)).statement = some ⟨⟨2, 0⟩, ⟨2, 2⟩⟩)) = true := by
    decide +kernel
  obtain ⟨table, htable, hplace⟩ := (Option.any_eq_true _ _).1 hmoved
  refine ⟨⟨table, htable, fun hdescribes => ?_⟩, by decide +kernel, hmap⟩
  have hsaid := (hdescribes (.ofInt 1)).statement _ (of_decide_eq_true hplace)
  rw [hmap] at hsaid
  cases hsaid

end FileCoverage

end ContractCoverage
