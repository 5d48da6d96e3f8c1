import ContractCoverage.Project.Basic
import ContractCoverage.Proofs.Data.Lookup
import ContractCoverage.Proofs.Project.Paths

/-! Loading a project.

A project has one file under each name. Of the paths with one name the last one counts, so a file is
tracked as long as no later path has its name (`tracks_iff`), and all files are tracked when all
names are different. Paths to different files have different names when they are taken from a base
directory; without one they have the last parts of the paths for names, and files of different
directories may share that (`load_tracks_iff`, `not_tracks_sameName`). -/
namespace ContractCoverage

/-- A property of the items of a list and later ones, said of each item and those behind it. -/
theorem pairwise_iff_behind {α : Type} {R : α → α → Prop} {items : List α} :
    items.Pairwise R ↔ ∀ before a after, items = before ++ a :: after → ∀ b ∈ after, R a b := by
  constructor
  · rintro h before a after rfl
    exact (List.pairwise_cons.1 (List.pairwise_append.1 h).2.1).1
  · intro h
    induction items with
    | nil => exact .nil
    | cons a items ih =>
      refine .cons (h [] a items rfl) (ih fun before b after heq => ?_)
      exact h (a :: before) b after (congrArg (a :: ·) heq)

namespace Workspace

/-- A path leads to a file that holds a text. -/
def HoldsText (w : Workspace) (path : String) : Prop :=
  ∃ bytes, w.read path = .ok bytes ∧ ByteArray.IsValidUTF8 ⟨bytes.toArray⟩

/-- The text of the file that a path leads to, blank when there is none. -/
def textOf (w : Workspace) (path : String) : String := (w.readText path).toOption.getD ""

/-- The text of a file has the bytes of the file. -/
theorem HoldsText.readText {w : Workspace} {path : String} (h : w.HoldsText path) :
    w.readText path = .ok (w.textOf path) ∧
      w.read path = .ok (w.textOf path).toUTF8.data.toList := by
  obtain ⟨bytes, hread, hvalid⟩ := h
  have htext : w.readText path = .ok (.fromUTF8 ⟨bytes.toArray⟩ hvalid) := by
    rw [Workspace.readText, hread]
    simp only [String.fromUTF8?, dif_pos hvalid]
  rw [textOf, htext, hread]
  exact ⟨rfl, rfl⟩

end Workspace

namespace Project

/-! ### Files and their names -/

/-- A project tracks the file that a path leads to, under the name of the path: it hands the bytes
of the file to the compiler under that name. -/
def Tracks (w : Workspace) (base : Option String) (p : Project) (path : String) : Prop :=
  ∃ file, p.files.get? (w.nameOf base path) = some file ∧ file.path = path ∧
    file.name = w.nameOf base path ∧
    p.compilerInputs.lookup (w.nameOf base path) = some file.text ∧
    w.read path = .ok file.text.toUTF8.data.toList ∧
    w.files.get? (Path.resolve w.directory path) = some file.text.toUTF8.data.toList

/-- The file that a path leads to, under its name. -/
def unit (w : Workspace) (base : Option String) (path : String) : String × FileCoverage :=
  let name := w.nameOf base path
  (name, .new name path (w.textOf path))

/-- The files that paths lead to, put in one after the other. -/
def units (w : Workspace) (base : Option String) (paths : List String)
    (files : KeyedList String FileCoverage) : KeyedList String FileCoverage :=
  (paths.map (unit w base)).foldl (fun files e => files.insert e.1 e.2) files

theorem load_eq {w : Workspace} {base : Option String} {paths : List String}
    (h : ∀ path ∈ paths, w.HoldsText path) :
    load w paths base = .ok ⟨units w base paths .empty⟩ := by
  have hadd : ∀ (paths : List String) (p : Project), (∀ path ∈ paths, w.HoldsText path) →
      paths.foldlM (addFile w base) p = .ok ⟨units w base paths p.files⟩ := by
    intro paths
    induction paths with
    | nil => exact fun p _ => rfl
    | cons path paths ih =>
      intro p h
      obtain ⟨hpath, hpaths⟩ := List.forall_mem_cons.1 h
      rw [List.foldlM_cons, addFile, hpath.readText.1, map_ok, ok_bind, ih _ hpaths]
      rfl
  exact hadd paths {} h

theorem lookup_compilerInputs (p : Project) (name : String) :
    p.compilerInputs.lookup name = (p.files.get? name).map (·.text) := by
  show (p.files.entries.map fun e => (e.1, e.2.text)).lookup name =
    (KeyedList.findEntry name p.files.entries).map (·.text)
  induction p.files.entries with
  | nil => rfl
  | cons e es ih =>
    obtain ⟨key, file⟩ := e
    rw [List.map_cons, List.lookup_cons, ih, KeyedList.findEntry, BEq.comm]
    cases key == name <;> rfl

/-- Under a name there is what one of the paths with that name leads to, or what was there before
when there is none. -/
theorem get?_units (w : Workspace) (base : Option String) (paths : List String)
    (files : KeyedList String FileCoverage) (name : String) :
    (∃ path ∈ paths, w.nameOf base path = name ∧
        (units w base paths files).get? name = some (unit w base path).2) ∨
      (∀ path ∈ paths, w.nameOf base path ≠ name) ∧
        (units w base paths files).get? name = files.get? name := by
  rcases KeyedList.get?_foldl_insert files (paths.map (unit w base)) name with
    ⟨e, he, hname, hget⟩ | ⟨hnone, hget⟩
  · obtain ⟨path, hpath, rfl⟩ := List.mem_map.1 he
    exact .inl ⟨path, hpath, beq_iff_eq.1 hname, hget⟩
  · refine .inr ⟨fun path hpath => ?_, hget⟩
    exact beq_eq_false_iff_ne.1 (hnone _ (List.mem_map_of_mem hpath))

/-- A file is tracked as long as no later path has its name. -/
theorem tracks_iff {w : Workspace} {base : Option String} {before after : List String}
    {path : String} (htext : w.HoldsText path) (hapart : path ∉ after) :
    Tracks w base ⟨units w base (before ++ path :: after) .empty⟩ path ↔
      ∀ other ∈ after, w.nameOf base other ≠ w.nameOf base path := by
  have hsplit : units w base (before ++ path :: after) .empty = units w base after
      ((units w base before .empty).insert (w.nameOf base path) (unit w base path).2) := by
    rw [units, List.map_append, List.foldl_append]
    rfl
  rw [Tracks, hsplit]
  rcases get?_units w base after
    ((units w base before .empty).insert (w.nameOf base path) (unit w base path).2)
    (w.nameOf base path) with ⟨other, hother, hname, hget⟩ | ⟨hnone, hget⟩
  · refine iff_of_false ?_ fun h => h other hother hname
    rintro ⟨file, hfile, hpath, -⟩
    obtain rfl : (unit w base other).2 = file := Option.some.inj (hget.symm.trans hfile)
    obtain rfl : other = path := hpath
    exact hapart hother
  · rw [KeyedList.get?_insert, BEq.rfl, if_pos rfl] at hget
    have hread := htext.readText.2
    refine iff_of_true ⟨_, hget, rfl, rfl, ?_, hread, Workspace.get?_resolve_of_read hread⟩ hnone
    rw [lookup_compilerInputs, hget]
    rfl

/-- Paths to different files have different names when these are the ways from a base directory. -/
theorem pairwise_nameOf {w : Workspace} {paths : List String} {base : String}
    (h : paths.Pairwise fun a b => Path.resolve w.directory a ≠ Path.resolve w.directory b) :
    paths.Pairwise fun a b => w.nameOf (some base) a ≠ w.nameOf (some base) b :=
  h.imp fun hne heq => hne (Path.resolve_eq_of_relative heq)

/-! ### Loading -/

/-- **Which files are lost.** Paths to different files with texts can be loaded. A file is tracked,
with all its bytes, exactly when no later path has its name; so all of them are exactly when their
names are different, and names from a base directory are. -/
theorem load_tracks_iff {w : Workspace} {paths : List String} {base : Option String}
    (htexts : ∀ path ∈ paths, w.HoldsText path)
    (hapart : paths.Pairwise fun a b => Path.resolve w.directory a ≠ Path.resolve w.directory b) :
    ∃ p, load w paths base = .ok p ∧
      (∀ before path after, paths = before ++ path :: after →
        (Tracks w base p path ↔ ∀ other ∈ after, w.nameOf base other ≠ w.nameOf base path)) ∧
      ((∀ path ∈ paths, Tracks w base p path) ↔
        paths.Pairwise fun a b => w.nameOf base a ≠ w.nameOf base b) ∧
      (base.isSome = true → paths.Pairwise fun a b => w.nameOf base a ≠ w.nameOf base b) := by
  have htracks : ∀ before path after, paths = before ++ path :: after →
      (Tracks w base ⟨units w base paths .empty⟩ path ↔
        ∀ other ∈ after, w.nameOf base other ≠ w.nameOf base path) := by
    rintro before path after rfl
    refine tracks_iff (htexts path (List.mem_append_right _ (List.mem_cons_self ..))) fun hmem => ?_
    exact pairwise_iff_behind.1 hapart before path after rfl path hmem rfl
  refine ⟨_, load_eq htexts, htracks, ?_, fun hbase => ?_⟩
  · rw [pairwise_iff_behind]
    constructor
    · intro h before path after hpaths other hother
      have hpath : path ∈ paths := hpaths ▸ List.mem_append_right _ (List.mem_cons_self ..)
      exact Ne.symm ((htracks before path after hpaths).1 (h path hpath) other hother)
    · intro h path hpath
      obtain ⟨before, after, hpaths⟩ := List.append_of_mem hpath
      exact (htracks before path after hpaths).2 fun other hother =>
        Ne.symm (h before path after hpaths other hother)
  · cases base with
    | none => cases hbase
    | some base => exact pairwise_nameOf hapart

/-- Two directories with a file of the same name in each. -/
def sameNames : Workspace :=
  .ofFiles [("a/x.sol", "a;\n".toUTF8.data.toList), ("b/x.sol", "b;\n".toUTF8.data.toList)]

/-- The paths to these files. -/
def samePaths : List String := ["a/x.sol", "b/x.sol"]

theorem holdsText_sameNames : ∀ path ∈ samePaths, sameNames.HoldsText path := by
  have hfirst : sameNames.read "a/x.sol" = .ok "a;\n".toUTF8.data.toList := by decide +kernel
  have hsecond : sameNames.read "b/x.sol" = .ok "b;\n".toUTF8.data.toList := by decide +kernel
  exact List.forall_mem_cons.2 ⟨⟨_, hfirst, "a;\n".isValidUTF8⟩,
    List.forall_mem_singleton.2 ⟨_, hsecond, "b;\n".isValidUTF8⟩⟩

theorem apart_samePaths : samePaths.Pairwise fun a b =>
    Path.resolve sameNames.directory a ≠ Path.resolve sameNames.directory b := by
  decide +kernel

/-- Taken from the directory above the workspace, both files are tracked, under different names. -/
theorem load_tracks_iff_fromAbove :
    (∀ path ∈ samePaths, sameNames.HoldsText path) ∧
      (samePaths.Pairwise fun a b =>
        Path.resolve sameNames.directory a ≠ Path.resolve sameNames.directory b) ∧
      ∃ p, load sameNames samePaths (some "..") = .ok p ∧
        (∀ path ∈ samePaths, Tracks sameNames (some "..") p path) ∧
        sameNames.nameOf (some "..") "a/x.sol" = "project/a/x.sol" ∧
        sameNames.nameOf (some "..") "b/x.sol" = "project/b/x.sol" := by
  obtain ⟨p, hload, -, hall, hnames⟩ :=
    @load_tracks_iff sameNames samePaths (some "..") holdsText_sameNames apart_samePaths
  refine ⟨holdsText_sameNames, apart_samePaths, p, hload, hall.2 (hnames rfl), ?_, ?_⟩ <;>
    decide +kernel

/-- **A file is lost to a later one of the same name.** Without a base directory both files are
known as x.sol. The project that is loaded has one file, and does not track the first. -/
theorem not_tracks_sameName :
    (∀ path ∈ samePaths, sameNames.HoldsText path) ∧
      (samePaths.Pairwise fun a b =>
        Path.resolve sameNames.directory a ≠ Path.resolve sameNames.directory b) ∧
      ∃ p, load sameNames samePaths none = .ok p ∧
        p.compilerInputs = [("x.sol", "b;\n")] ∧ ¬ Tracks sameNames none p "a/x.sol" := by
  refine ⟨holdsText_sameNames, apart_samePaths, _, load_eq holdsText_sameNames, ?_, fun h => ?_⟩
  · decide +kernel
  · have hapart : "a/x.sol" ∉ ["b/x.sol"] := by decide
    have hfirst := holdsText_sameNames "a/x.sol" (List.mem_cons_self ..)
    have hlast := (@tracks_iff sameNames none [] ["b/x.sol"] "a/x.sol" hfirst hapart).1 h
    exact hlast "b/x.sol" (List.mem_singleton_self _) (by decide +kernel)

end Project

end ContractCoverage
