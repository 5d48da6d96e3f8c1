import ContractCoverage.Proofs.Coverage.Balance
import ContractCoverage.Proofs.File.Ingestion
import ContractCoverage.Proofs.File.Visits

/-! The history of a file: compiler output and traces, in any order.

A file that keeps one range table throughout (`Uses`) starts with no hits, lists what the
table has whenever the table comes in, and adds hits of registered targets. So every
balance of the table stays zero, step by step (`owed_act`) and over a whole history
(`owed_after`). Read for the two kinds of balances this says where the hits of lines and
of arms come from (`lines_and_arms`). -/
namespace ContractCoverage

/-- What happens to a file. -/
inductive Action where
  | ingest (s : Settings) (contracts source : Value)
  | record (s : Settings) (trace : Value)

namespace Fragment

/-- The hits of a line are those of the statements and the functions whose location spans it. -/
def LinesFollow (f : Fragment) (table : RangeTable) : Prop :=
  ∀ line, hitsOf f.lines (.ofInt line) =
    total (table.spans "s" line) f.statements + total (table.spans "f" line) f.functions

/-- The hits of an arm are those of the only target that stands for it, a statement; an arm that
nothing stands for has none. -/
def ArmsFollow (f : Fragment) (table : RangeTable) : Prop :=
  ∀ branch (arm : Nat),
    (Tree.linked ⟨branch, arm⟩ table.registered = [] ∧ f.armHits branch arm = 0) ∨
      ∃ e, Tree.linked ⟨branch, arm⟩ table.registered = [e] ∧ e.2.key.kind = "s" ∧
        f.armHits branch arm = hitsOf f.statements e.2.key.id

end Fragment

namespace FileCoverage

/-- A file after an action, which may also have been refused. -/
def act (file : FileCoverage) : Action → FileCoverage
  | .ingest s contracts source => (file.ingest s contracts source).state
  | .record s trace => (file.record s trace).state

/-- A file after actions, one after the other. -/
def after (file : FileCoverage) (actions : List Action) : FileCoverage := actions.foldl act file

/-- An action brings no other syntax tree than this one. -/
def BringsOnly (tree : Value) : Action → Prop
  | .ingest _ _ source => ∀ other, treeOf source = .ok (some other) → other = tree
  | .record .. => True

/-- A file has one range table throughout: one that it has been given, or the one of the only syntax
tree that comes. -/
inductive Uses (table : RangeTable) (actions : List Action) (file : FileCoverage) : Prop
  | given (h : file.resolver = .given table)
  | derived (tree : Value) (hindex : Tree.index file.lines tree = .ok table)
    (honly : ∀ a ∈ actions, BringsOnly tree a)
    (h : file.resolver = .absent ∨ file.resolver = .derived table)

theorem Uses.table_eq {table t : RangeTable} {actions : List Action} {file : FileCoverage}
    (h : file.Uses table actions) (ht : file.resolver.table? = some t) : t = table := by
  cases h with
  | given h =>
    rw [h] at ht
    exact (Option.some.inj ht).symm
  | derived tree _ _ h =>
    rcases h with h | h <;> rw [h] at ht
    · cases ht
    · exact (Option.some.inj ht).symm

/-- What an ingestion makes of a file: nothing, or one with new listings and perhaps with the table
of the tree that came. -/
theorem ingest_cases (s : Settings) (file : FileCoverage) (contracts source : Value) :
    (file.ingest s contracts source).state = file ∨ ∃ sourceId artifacts table,
      (file.ingest s contracts source).state = file.install sourceId artifacts table ∧
      ∀ t, table = some t → ∃ tree, treeOf source = .ok (some tree) ∧
        file.resolver.isReplaceable = true ∧ Tree.index file.lines tree = .ok t := by
  cases h : (ingested s file contracts source).result with
  | error fault => exact .inl (by simp only [ingest, h])
  | ok file' =>
    obtain ⟨-, artifacts, -, -, -, -, rfl⟩ := ingested_eq_ok_iff.1 h
    exact .inr ⟨file.numberWith source, artifacts, file.treeTable? source,
      by simp only [ingest, h], fun _ => index_of_treeTable⟩

/-- The table that an ingestion brings is the one that the file uses. -/
theorem Uses.ingested_eq {table t : RangeTable} {actions : List Action} {file : FileCoverage}
    {s : Settings} {contracts source tree : Value}
    (h : file.Uses table (.ingest s contracts source :: actions))
    (htree : treeOf source = .ok (some tree)) (hreplaceable : file.resolver.isReplaceable = true)
    (hindex : Tree.index file.lines tree = .ok t) : t = table := by
  cases h with
  | given h =>
    rw [h] at hreplaceable
    cases hreplaceable
  | derived own hown honly _ =>
    obtain rfl : tree = own := honly _ (List.mem_cons_self ..) tree htree
    exact Except.ok.inj (hindex.symm.trans hown)

/-- A file goes on with its table after an action. -/
theorem Uses.act {table : RangeTable} {a : Action} {actions : List Action} {file : FileCoverage}
    (h : file.Uses table (a :: actions)) : (file.act a).Uses table actions := by
  have hkept : ∀ file' : FileCoverage, file'.text = file.text →
      (file'.resolver = file.resolver ∨
        file.resolver.isReplaceable = true ∧ file'.resolver = .derived table) →
      file'.Uses table actions := by
    intro file' htext hresolver
    have hlines : file'.lines = file.lines := congrArg LineTable.ofText htext
    cases h with
    | given h =>
      rcases hresolver with hsame | ⟨hreplaceable, -⟩
      · exact .given (hsame.trans h)
      · rw [h] at hreplaceable
        cases hreplaceable
    | derived tree hindex honly h =>
      refine .derived tree (hlines ▸ hindex) (List.forall_mem_cons.1 honly).2 ?_
      rcases hresolver with hsame | ⟨-, hderived⟩
      · rwa [hsame]
      · exact .inr hderived
  cases a with
  | record s trace =>
    show ((file.record s trace).state).Uses table actions
    rw [record_state]
    exact hkept _ rfl (.inl rfl)
  | ingest s contracts source =>
    show ((file.ingest s contracts source).state).Uses table actions
    rcases ingest_cases s file contracts source with hsame | ⟨id, artifacts, found, hnew, hfound⟩
    · rw [hsame]
      exact hkept file rfl (.inl rfl)
    · rw [hnew]
      cases found with
      | none => exact hkept _ rfl (.inl rfl)
      | some t =>
        obtain ⟨tree, htree, hreplaceable, hindex⟩ := hfound t rfl
        obtain rfl := h.ingested_eq htree hreplaceable hindex
        exact hkept _ rfl (.inr ⟨hreplaceable, rfl⟩)

/-- A trace leaves every balance as it is. -/
theorem owed_record {table : RangeTable} {owed : Fragment → Int} (hb : table.Balance owed)
    {file : FileCoverage} (huses : ∀ t, file.resolver.table? = some t → t = table) (s : Settings)
    (trace : Value) : owed (file.record s trace).state.coverage = owed file.coverage := by
  cases h : (file.record s trace).result with
  | error fault => rw [coverage_of_refused h]
  | ok answer =>
    obtain ⟨added, hadded, htotal⟩ := coverage_of_record h
    have hcredits : ∀ credit ∈ file.credits s trace, ∃ e ∈ table.registered, e.2 = credit.1 :=
      registered_of_credits (P := fun t => ∃ e ∈ table.registered, e.2 = t)
        fun t ht e he => ⟨e, huses t ht ▸ he, rfl⟩
    have hzero : owed added = 0 := (hb.hitAll hcredits hadded).trans (hb.unlisted _)
    rw [htotal, hb.merge, hzero, Int.add_zero]

/-- An action leaves every balance of the table as it is. -/
theorem owed_act {table : RangeTable} {owed : Fragment → Int} (hb : table.Balance owed)
    {file : FileCoverage} {a : Action} {actions : List Action}
    (h : file.Uses table (a :: actions)) : owed (file.act a).coverage = owed file.coverage := by
  cases a with
  | record s trace => exact owed_record hb (fun _ => h.table_eq) s trace
  | ingest s contracts source =>
    show owed (file.ingest s contracts source).state.coverage = _
    rcases ingest_cases s file contracts source with hsame | ⟨id, artifacts, found, hnew, hfound⟩
    · rw [hsame]
    · rw [hnew]
      cases found with
      | none => rfl
      | some t =>
        obtain ⟨tree, htree, hreplaceable, hindex⟩ := hfound t rfl
        obtain rfl := h.ingested_eq htree hreplaceable hindex
        show owed (file.coverage.merge (t.initial (some file.path))) = _
        rw [hb.merge, hb.listed, Int.add_zero]

/-- A history leaves every balance of the table as it is. -/
theorem owed_after {table : RangeTable} {owed : Fragment → Int} (hb : table.Balance owed)
    {file : FileCoverage} {actions : List Action} (h : file.Uses table actions) :
    owed (file.after actions).coverage = owed file.coverage := by
  induction actions generalizing file with
  | nil => rfl
  | cons a actions ih =>
    show owed ((file.act a).after actions).coverage = _
    rw [ih h.act, owed_act hb h]

/-- Nothing is owed in a new file. -/
theorem owed_new {table : RangeTable} {owed : Fragment → Int} (hb : table.Balance owed)
    {name path text : String} {given : Option RangeTable} {actions : List Action}
    (h : (new name path text given).Uses table actions) :
    owed (new name path text given).coverage = 0 := by
  cases given with
  | none => exact hb.unlisted _
  | some t =>
    obtain rfl : t = table := h.table_eq rfl
    show owed (({ path := some path } : Fragment).merge (t.initial (some path))) = 0
    rw [hb.merge, hb.unlisted, hb.listed]
    rfl

/-- **Lines and arms follow their statements.** However a new file that uses one consistent table
has been ingested and recorded, the hits of a line are those of the statements and of the functions
whose location spans it. Where the table is that of a syntax tree whose branches have different
identifiers, an arm has the hits of the one statement that stands for it, or none when no statement
does. -/
theorem lines_and_arms {name path text : String} {given : Option RangeTable} {table : RangeTable}
    {actions : List Action} (huses : (new name path text given).Uses table actions)
    (hc : table.Consistent) :
    ((new name path text given).after actions).coverage.LinesFollow table ∧
      ∀ lines tree, Tree.index lines tree = .ok table →
        ((Tree.branchIds (Tree.visited [(tree, none)])).Pairwise fun i j => (i == j) = false) →
        ((new name path text given).after actions).coverage.ArmsFollow table := by
  have hzero : ∀ owed, table.Balance owed →
      owed ((new name path text given).after actions).coverage = 0 := fun owed hb =>
    (owed_after hb huses).trans (owed_new hb huses)
  generalize ((new name path text given).after actions).coverage = f at hzero
  refine ⟨fun line => ?_, fun lines tree hindex hids branch arm => ?_⟩
  · exact Int.sub_eq_zero.1 (hzero _ (RangeTable.balance_line hc line))
  · have hderived := Tree.registered_of_index hindex
    rcases Tree.linked_cases hindex hids ⟨branch, arm⟩ with hnone | ⟨e, hone⟩
    · exact .inl ⟨hnone, hzero _ (RangeTable.balance_unlinked hderived hnone)⟩
    · have he : e ∈ Tree.linked ⟨branch, arm⟩ table.registered := by simp [hone]
      obtain ⟨hmem, hstands⟩ := List.mem_filter.1 he
      have hkind : e.2.key.kind = "s" :=
        ((RangeTable.standsFor_iff_of_linked hderived hc hone hmem).1 hstands).1
      have hbalance := hzero _ (RangeTable.balance_arm hderived hc hone)
      exact .inr ⟨e, hone, hkind, Int.sub_eq_zero.1 hbalance⟩

/-- The compiler's output for the chain of two branches, with one instruction, which is of the
statement in the first arm. -/
def chainHistory : List Action :=
  [.ingest {} (.object [("Chain", .object [("evm", .object
      [("bytecode", .object [("object", .text "")]),
        ("deployedBytecode", .object [("object", .text "00"), ("sourceMap", .text "9:2:0")])])])])
      (.object [("id", .int 0), ("ast", Tree.chain)]),
    .record {} (callOf [0]), .record {} (callOf [0])]

/-- Two visits of the statement in the first arm: two hits of its line and two of the arm. -/
theorem lines_and_arms_chain :
    ∃ table, Tree.index (.ofText Tree.chainText) Tree.chain = .ok table ∧ table.Consistent ∧
      ((new "Chain.sol" "Chain.sol" Tree.chainText).after chainHistory).coverage.LinesFollow
        table ∧
      ((new "Chain.sol" "Chain.sol" Tree.chainText).after chainHistory).coverage.ArmsFollow
        table ∧
      ((new "Chain.sol" "Chain.sol" Tree.chainText).after chainHistory).coverage.armHits
        (.ofInt 1) 0 = 2 := by
  have hdistinct : ((Tree.index (.ofText Tree.chainText) Tree.chain).toOption.any fun t =>
      decide (t.registered.Pairwise fun e e' => (e.2.key.id == e'.2.key.id) = false)) = true := by
    decide +kernel
  cases hindex : Tree.index (.ofText Tree.chainText) Tree.chain with
  | error fault =>
    rw [hindex] at hdistinct
    cases hdistinct
  | ok table =>
    rw [hindex] at hdistinct
    have hc : table.Consistent :=
      RangeTable.consistent_of_distinct (of_decide_eq_true hdistinct)
    have honly : ∀ a ∈ chainHistory, BringsOnly Tree.chain a := by
      refine List.forall_mem_cons.2 ⟨fun other hother => ?_, ?_⟩
      · cases hother
        rfl
      · exact List.forall_mem_cons.2 ⟨trivial, List.forall_mem_singleton.2 trivial⟩
    have huses : (new "Chain.sol" "Chain.sol" Tree.chainText).Uses table chainHistory :=
      .derived Tree.chain hindex honly (.inl rfl)
    obtain ⟨hlines, harms⟩ := lines_and_arms huses hc
    refine ⟨table, rfl, hc, hlines, harms _ _ hindex Tree.branchIds_chain, ?_⟩
    decide +kernel

end FileCoverage

end ContractCoverage
