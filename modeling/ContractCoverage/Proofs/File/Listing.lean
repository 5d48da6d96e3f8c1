import ContractCoverage.Proofs.Coverage.Sections
import ContractCoverage.Proofs.File.Commands
import ContractCoverage.Proofs.Tree.Listing

/-! What the total of a file lists.

Without a table of its caller's a file resolves hits with tables of syntax trees only. Such
a table lists whatever it registers, so a trace hits nothing that has not been listed when
the table came in (`admits_of_index`). The total of a file therefore lists exactly what the
tables list that have come in so far, with two arms of every branch, and recording a trace
adds no key to it and no arm (`performAll_listsExactly`). -/
namespace ContractCoverage

/-- The zero hits of a tree have counters for every target that its table registers. -/
theorem Tree.admits_of_index {lines : LineTable} {tree : Value} {t : RangeTable}
    (h : Tree.index lines tree = .ok t) : ∀ e ∈ t.registered, t.initial.Admits e.2 := by
  intro e he
  have hcomplete := Tree.complete_of_index h
  obtain ⟨hbranch, hpaired, -⟩ := Tree.registered_of_index h e he
  have hlisted := hcomplete.targets e he
  refine ⟨?_, fun line hline => Fragment.lists_initial_line _ he hline, fun a ha => ⟨?_, ?_⟩⟩
  · cases hkey : e.2.key with
    | statement id arm =>
      rw [hkey] at hlisted
      exact (Fragment.lists_initial_statement ..).trans hlisted
    | function id arm =>
      rw [hkey] at hlisted
      exact (Fragment.lists_initial_function ..).trans hlisted
    | branch id arm =>
      rw [hkey] at hbranch
      cases hbranch
  · exact (Fragment.lists_initial_branch ..).trans (hcomplete.links e he a ha)
  · rcases hpaired a ha with harm | harm <;> omega

namespace FileCoverage

/-- A table that an action brings is the one of a syntax tree. -/
theorem index_of_brings? {file : FileCoverage} {a : Action} {t : RangeTable}
    (h : file.brings? (.act a) = some t) : ∃ tree, Tree.index file.lines tree = .ok t := by
  cases a with
  | record => cases h
  | ingest s contracts source =>
    simp only [brings?] at h
    split at h
    · obtain ⟨tree, -, -, hindex⟩ := index_of_treeTable h
      exact ⟨tree, hindex⟩
    · cases h

/-- The tables that have come in are those of syntax trees, the one in use is among them, and the
total lists exactly what they list. -/
structure Follows (resolver : Resolver) (total : Fragment) (tables : List RangeTable) : Prop where
  current : ∀ t, resolver.table? = some t → t ∈ tables
  derived : ∀ t ∈ tables, ∃ lines tree, Tree.index lines tree = .ok t
  listing : total.ListsExactly tables

/-- A command that brings no table of its own leaves what the total lists. -/
theorem Effect.follows {file : FileCoverage} {brought : Option RangeTable} {resolver : Resolver}
    {total : Fragment} {tables : List RangeTable} (h : Effect file brought resolver total)
    (hbrought : ∀ t, brought = some t → ∃ lines tree, Tree.index lines tree = .ok t)
    (hfile : Follows file.resolver file.coverage tables) :
    Follows resolver total (tables ++ brought.toList) := by
  cases h with
  | kept => rwa [Option.toList_none, List.append_nil]
  | @recorded s trace added hadded =>
    rw [Option.toList_none, List.append_nil]
    refine ⟨hfile.current, hfile.derived, ?_⟩
    have hadmits : ∀ credit ∈ file.credits s trace, file.coverage.Admits credit.1 := by
      refine registered_of_credits fun t ht e he => ?_
      obtain ⟨lines, tree, hindex⟩ := hfile.derived t (hfile.current t ht)
      exact (Tree.admits_of_index hindex e he).of_lists
        (hfile.listing.of_mem (hfile.current t ht))
    exact hfile.listing.merge_within
      (Fragment.within_hitAll (Fragment.within_unlisted ..) hadmits hadded)
  | @listed table resolver hresolver =>
    obtain ⟨lines, tree, hindex⟩ := hbrought table rfl
    refine ⟨fun t ht => ?_, fun t ht => ?_, ?_⟩
    · obtain rfl : table = t := Option.some.inj (hresolver.symm.trans ht)
      exact List.mem_append_right _ (List.mem_singleton_self _)
    · rcases List.mem_append.1 ht with ht | ht
      · exact hfile.derived t ht
      · rw [List.mem_singleton.1 ht]
        exact ⟨lines, tree, hindex⟩
    · exact hfile.listing.merge_initial _ (Tree.complete_of_index hindex).arms

theorem follows_performAll {file : FileCoverage} {tables : List RangeTable}
    (h : Follows file.resolver file.coverage tables) (actions : List Action) :
    Follows (file.performAll (actions.map .act)).resolver
      (file.performAll (actions.map .act)).coverage
      (tables ++ file.brought (actions.map .act)) := by
  refine performAll_keeps (P := fun file tables => Follows file.resolver file.coverage tables) h ?_
  intro c hc file tables hfile
  obtain ⟨a, -, rfl⟩ := List.mem_map.1 hc
  exact (perform_effect file (.act a)).follows
    (fun t ht => ⟨file.lines, index_of_brings? ht⟩) hfile

/-- **A total lists the trees that have come in.** For a file without a table of its caller's,
whatever output and traces it has been given, the total has exactly the keys of the zero hits of
the tables that have come in, and two arms of every branch. So recording a trace adds no key and
no arm. -/
theorem performAll_listsExactly (name path text : String) (actions : List Action) :
    let file := (new name path text).performAll (actions.map .act)
    file.coverage.ListsExactly ((new name path text).brought (actions.map .act)) ∧
      ∀ s trace,
        (∀ sec k, (file.record s trace).state.coverage.lists sec k = file.coverage.lists sec k) ∧
          ∀ k, ((file.record s trace).state.coverage.branches.get? k).map List.length =
            (file.coverage.branches.get? k).map List.length := by
  intro file
  have hnew : Follows (new name path text).resolver (new name path text).coverage [] :=
    ⟨nofun, nofun, Fragment.listsExactly_unlisted _⟩
  have hfile := follows_performAll hnew actions
  refine ⟨hfile.listing, fun s trace => ?_⟩
  have hrecorded := (perform_effect file (.act (.record s trace))).follows nofun hfile
  rw [brings?, Option.toList_none, List.append_nil] at hrecorded
  exact hrecorded.listing.same hfile.listing

end FileCoverage

end ContractCoverage
