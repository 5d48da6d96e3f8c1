import ContractCoverage.Project.Workspace
import ContractCoverage.Proofs.Data.Chain
import ContractCoverage.Proofs.Text.Written

/-! Files and the names that their paths give them.

Following a path part by part keeps in step with resolving it: in a directory the parts that are
left over are those of the directory (`isAt_follow`). So a path that can be read leads to the file
that stands in the workspace under its resolved parts (`get?_resolve_of_read`), and two such paths
lead to different files when these are different.

Resolved parts have no two dots among them. So the way from a base directory goes up, and then down
without two dots: it says how much of the base it leaves and what it enters, and gives the resolved
parts back (`resolve_eq_of_relative`). The last part of a path says nothing of the directories
before it. -/
namespace ContractCoverage

/-- A field holds no separator. -/
theorem Text.not_mem_of_mem_split {sep : Char} {s field : List Char} (h : field ∈ split sep s) :
    sep ∉ field := by
  induction s generalizing field with
  | nil =>
    obtain rfl := List.mem_singleton.1 h
    exact List.not_mem_nil
  | cons c cs ih =>
    rw [split] at h
    split at h
    · rcases List.mem_cons.1 h with rfl | h
      · exact List.not_mem_nil
      · exact ih h
    · next hc =>
      cases hs : split sep cs with
      | nil => exact absurd hs (split_ne_nil sep cs)
      | cons first fields =>
        rw [hs] at h ih
        rcases List.mem_cons.1 h with rfl | h
        · exact List.not_mem_cons_of_ne_of_not_mem (Ne.symm hc) (ih (List.mem_cons_self ..))
        · exact ih (List.mem_cons_of_mem _ h)

namespace Path

/-! ### Resolved parts -/

/-- A part that leads on from a directory: it holds no slash, says something and does not lead
up. -/
structure IsStep (p : Part) : Prop where
  plain : '/' ∉ p
  notIdle : isIdle p = false
  notUp : p ≠ up

theorem push_of_isIdle {p : Part} (h : isIdle p = true) (done : List Part) : push done p = done :=
  if_pos h

/-- A part that leads on is put on top. -/
theorem push_step {p : Part} (hidle : isIdle p = false) (hup : p ≠ up) (done : List Part) :
    push done p = p :: done := by
  unfold push
  rw [hidle, if_neg Bool.false_ne_true, if_neg (mt beq_iff_eq.1 hup)]

/-- Two dots take the last part back, where there is one. -/
theorem push_up (done : List Part) : push done up = done.tail := rfl

/-- Only parts that lead on are kept. -/
theorem forall_push {done : List Part} {p : Part} (hp : '/' ∉ p) (h : ∀ q ∈ done, IsStep q) :
    ∀ q ∈ push done p, IsStep q := by
  unfold push
  split
  · exact h
  · next hidle =>
    split
    · exact fun q hq => h q (List.mem_of_mem_tail hq)
    · next hup =>
      refine List.forall_mem_cons.2 ⟨⟨hp, Bool.eq_false_iff.2 hidle, ?_⟩, h⟩
      exact fun heq => hup (beq_iff_eq.2 heq)

theorem forall_follow {start : List Part} (h : ∀ p ∈ start, IsStep p) (path : String) :
    ∀ p ∈ follow start path, IsStep p := by
  have hpush : ∀ (ps done : List Part), (∀ p ∈ ps, '/' ∉ p) → (∀ q ∈ done, IsStep q) →
      ∀ q ∈ ps.foldl push done, IsStep q := by
    intro ps
    induction ps with
    | nil => exact fun done _ h => h
    | cons p ps ih =>
      intro done hps h
      obtain ⟨hp, hps⟩ := List.forall_mem_cons.1 hps
      exact ih (push done p) hps (forall_push hp h)
  intro p hp
  exact hpush (parts path) start.reverse (fun p hp => Text.not_mem_of_mem_split hp)
    (fun q hq => h q (List.mem_reverse.1 hq)) p (List.mem_reverse.1 hp)

/-- Resolved parts lead on from the root. -/
theorem forall_resolve (directory path : String) : ∀ p ∈ resolve directory path, IsStep p := by
  refine forall_follow ?_ path
  unfold start
  split
  · exact List.forall_mem_nil _
  · exact forall_follow (List.forall_mem_nil _) directory

theorem up_not_mem_resolve (directory path : String) : up ∉ resolve directory path :=
  fun hmem => (forall_resolve directory path up hmem).notUp rfl

/-! ### Ways -/

/-- What two lists begin with in common, and what remains of them. -/
theorem exists_common (as bs : List Part) :
    ∃ common, as = common ++ (diverge as bs).1 ∧ bs = common ++ (diverge as bs).2 := by
  induction as generalizing bs with
  | nil =>
    cases bs with
    | nil => exact ⟨[], rfl, rfl⟩
    | cons b bs => exact ⟨[], rfl, rfl⟩
  | cons a as ih =>
    cases bs with
    | nil => exact ⟨[], rfl, rfl⟩
    | cons b bs =>
      rw [diverge]
      split
      · next hab =>
        obtain ⟨common, has, hbs⟩ := ih bs
        obtain rfl := beq_iff_eq.1 hab
        exact ⟨a :: common, congrArg (a :: ·) has, congrArg (a :: ·) hbs⟩
      · exact ⟨[], rfl, rfl⟩

/-- The steps up of a way are those at its beginning. -/
theorem takeWhile_way {base path : List Part} (h : up ∉ path) :
    (way base path).takeWhile (· == up) = (diverge base path).1.map fun _ => up := by
  obtain ⟨common, -, hpath⟩ := exists_common base path
  have hdown : (diverge base path).2.takeWhile (· == up) = [] := by
    cases hforth : (diverge base path).2 with
    | nil => rfl
    | cons p ps =>
      have hp : (p == up) = false := by
        refine beq_eq_false_iff_ne.2 fun heq => h ?_
        rw [hpath, hforth, heq]
        exact List.mem_append_right _ (List.mem_cons_self ..)
      rw [List.takeWhile_cons, hp]
      rfl
  rw [way, List.takeWhile_append_of_pos (by simp), hdown, List.append_nil]

/-- A way leads to one place. -/
theorem eq_of_way {base path path' : List Part} (h : up ∉ path) (h' : up ∉ path')
    (hway : way base path = way base path') : path = path' := by
  obtain ⟨common, hbase, hpath⟩ := exists_common base path
  obtain ⟨common', hbase', hpath'⟩ := exists_common base path'
  have hups : (diverge base path).1.map (fun _ => up) =
      (diverge base path').1.map fun _ => up := by
    rw [← takeWhile_way h, ← takeWhile_way h', hway]
  have hdown : (diverge base path).2 = (diverge base path').2 := by
    rw [way, way, hups] at hway
    exact List.append_cancel_left hway
  have hback : (diverge base path).1.length = (diverge base path').1.length := by
    simpa using congrArg List.length hups
  have hcommon : common = common' :=
    (List.append_inj' (hbase.symm.trans hbase') hback).1
  rw [hpath, hpath', hcommon, hdown]

/-- The parts of a way do not hold a slash and are not a single dot. -/
theorem forall_way {base path : List Part} (h : ∀ p ∈ path, IsStep p) :
    ∀ p ∈ way base path, '/' ∉ p ∧ p ≠ ['.'] := by
  obtain ⟨common, -, hpath⟩ := exists_common base path
  intro p hp
  rcases List.mem_append.1 hp with hup | hdown
  · obtain ⟨-, -, rfl⟩ := List.mem_map.1 hup
    exact ⟨by decide, by decide⟩
  · have hstep := h p (hpath ▸ List.mem_append_right _ hdown)
    refine ⟨hstep.plain, fun hdot => ?_⟩
    rw [hdot] at hstep
    exact absurd hstep.notIdle (by decide)

/-- The text of a way is the text of no other way. -/
theorem writeWay_injective {way way' : List Part} (h : ∀ p ∈ way, '/' ∉ p ∧ p ≠ ['.'])
    (h' : ∀ p ∈ way', '/' ∉ p ∧ p ≠ ['.']) (heq : writeWay way = writeWay way') : way = way' := by
  have hread : ∀ {way : List Part}, way ≠ [] → (∀ p ∈ way, '/' ∉ p ∧ p ≠ ['.']) →
      Text.split '/' (writeWay way).toList = way := by
    intro way hne hall
    cases way with
    | nil => exact absurd rfl hne
    | cons p ps =>
      show Text.split '/' (String.ofList (Text.join '/' (p :: ps))).toList = p :: ps
      rw [String.toList_ofList, Text.split_join hne fun q hq => (hall q hq).1]
  have hdot : ∀ {way : List Part}, (∀ p ∈ way, '/' ∉ p ∧ p ≠ ['.']) →
      writeWay way = "." → way = [] := by
    intro way hall hway
    by_contra hne
    have hsplit := hread hne hall
    rw [hway] at hsplit
    have hmem : ['.'] ∈ way := hsplit ▸ List.mem_singleton_self _
    exact (hall _ hmem).2 rfl
  cases way with
  | nil => exact (hdot h' heq.symm).symm
  | cons p ps =>
    cases way' with
    | nil => exact hdot h heq
    | cons q qs =>
      have hsame := hread (List.cons_ne_nil p ps) h
      rw [heq, hread (List.cons_ne_nil q qs) h'] at hsame
      exact hsame.symm

/-- **A way from a base gives back where it leads.** -/
theorem resolve_eq_of_relative {directory path path' base : String}
    (h : relative directory path base = relative directory path' base) :
    resolve directory path = resolve directory path' := by
  have hway := writeWay_injective (forall_way (forall_resolve directory path))
    (forall_way (forall_resolve directory path')) h
  exact eq_of_way (up_not_mem_resolve directory path) (up_not_mem_resolve directory path') hway

end Path

namespace Workspace
open ContractCoverage.Path

/-! ### Reading -/

/-- Where a path has led to, and its resolved parts so far, in reverse order. -/
def IsAt (w : Workspace) : Place → List Part → Prop
  | .directory parts, done => done = parts.reverse
  | .file bytes, done => w.files.get? done.reverse = some bytes

/-- Following a part keeps in step with pushing it. -/
theorem isAt_follow {w : Workspace} {path : String} {place place' : Place} {p : Part}
    {done : List Part} (h : w.IsAt place done) (hp : w.follow path place p = .ok place') :
    w.IsAt place' (push done p) := by
  cases place with
  | file bytes => cases hp
  | directory parts =>
    obtain rfl : done = parts.reverse := h
    simp only [Workspace.follow] at hp
    split at hp
    · next hidle =>
      cases hp
      exact push_of_isIdle hidle _
    · next hidle =>
      split at hp
      · next hup =>
        cases hp
        rw [beq_iff_eq.1 hup, push_up]
        exact List.tail_reverse
      · next hup =>
        rw [push_step (Bool.eq_false_iff.2 hidle) (mt beq_iff_eq.2 hup), ← List.reverse_concat]
        split at hp
        · next bytes hfile =>
          cases hp
          rw [IsAt, List.reverse_reverse, hfile]
        · split at hp <;> cases hp
          rfl

theorem isAt_foldlM {w : Workspace} {path : String} {parts : List Part} {place place' : Place}
    {done : List Part} (h : w.IsAt place done)
    (hread : parts.foldlM (w.follow path) place = .ok place') :
    w.IsAt place' (parts.foldl push done) := by
  induction parts generalizing place done with
  | nil =>
    cases hread
    exact h
  | cons p parts ih =>
    rw [List.foldlM_cons, bind_eq_ok_iff] at hread
    obtain ⟨next, hnext, hread⟩ := hread
    exact ih (isAt_follow h hnext) hread

/-- A path that can be read leads to the file under its resolved parts. -/
theorem get?_resolve_of_read {w : Workspace} {path : String} {bytes : List UInt8}
    (h : w.read path = .ok bytes) : w.files.get? (resolve w.directory path) = some bytes := by
  unfold read at h
  split at h
  · cases h
  · split at h
    · cases h
    · dsimp only at h
      split at h
      · cases h
      · next found hfound =>
        cases h
        exact isAt_foldlM (show w.IsAt (.directory _) _ from rfl) hfound
      · cases h

end Workspace

end ContractCoverage
