import ContractCoverage.Code.Placeholder
import Mathlib.Data.List.Sort

/-! Where a text is linked.

A window is a place in a text that a placeholder may stand at (`WindowAt`). Windows overlap
in a run of underscores, so linking has to choose among them: from the left, each one that
the last one chosen does not reach into (`Chosen`). There is one such choice (`Chosen.unique`),
it is the one that `link` makes (`exists_chosen_filled`), and nothing outside of it changes
(`Filled`).

No window is left, because the characters of one that was would have been there before:
the underscores and the line ends outside of the choice are those of the text before
linking (`not_windowAt_of_filled`). -/
namespace ContractCoverage.Placeholder

variable {s t head : List Char} {front ps qs : List Nat} {i k n p q : Nat}

/-! ### Windows -/

/-- A window of a text: as many characters as a placeholder has, two underscores first, and
no line end among them. -/
structure WindowAt (s : List Char) (i : Nat) : Prop where
  fits : i + width ≤ s.length
  first : s[i]? = some '_'
  second : s[i + 1]? = some '_'
  unbroken : ∀ k, i ≤ k → k < i + width → s[k]? ≠ some '\n'

theorem windowAt_drop_iff : WindowAt (s.drop n) i ↔ WindowAt s (n + i) := by
  refine ⟨fun h => ?_, fun h => ?_⟩
  · have hfits := h.fits
    rw [List.length_drop] at hfits
    refine ⟨by unfold width at *; omega, ?_, ?_, fun k hle hlt => ?_⟩
    · rw [← List.getElem?_drop, h.first]
    · rw [Nat.add_assoc, ← List.getElem?_drop, h.second]
    · have hk : n + (k - n) = k := by omega
      rw [← hk, ← List.getElem?_drop]
      exact h.unbroken _ (by omega) (by omega)
  · have hfits := h.fits
    refine ⟨by rw [List.length_drop]; omega, ?_, ?_, fun k hle hlt => ?_⟩
    · rw [List.getElem?_drop, h.first]
    · rw [List.getElem?_drop, ← Nat.add_assoc, h.second]
    · rw [List.getElem?_drop]
      exact h.unbroken _ (by omega) (by omega)

theorem WindowAt.exists_rest (h : WindowAt s 0) : ∃ rest, s = '_' :: '_' :: rest := by
  obtain ⟨-, hfirst, hsecond, -⟩ := h
  rcases s with _ | ⟨c, _ | ⟨d, rest⟩⟩
  · cases hfirst
  · cases hsecond
  · cases hfirst
    cases hsecond
    exact ⟨rest, rfl⟩

/-- The underscores of a placeholder are no line ends, so it is enough to look behind them. -/
theorem newline_mem_take_iff {rest : List Char} :
    '\n' ∈ rest.take (width - 2) ↔
      ∃ k < width, ('_' :: '_' :: rest)[k]? = some '\n' := by
  rw [List.mem_iff_getElem?]
  refine ⟨fun ⟨k, hk⟩ => ?_, fun ⟨k, hlt, hk⟩ => ?_⟩
  · rw [List.getElem?_take] at hk
    split at hk
    · exact ⟨k + 2, by omega, hk⟩
    · cases hk
  · rcases k with _ | _ | k
    · cases hk
    · cases hk
    · refine ⟨k, ?_⟩
      rw [List.getElem?_take, if_pos (by omega)]
      exact hk

/-- A placeholder stands at the beginning of a text exactly when there is a window. -/
theorem opens_iff_windowAt : opens s = true ↔ WindowAt s 0 := by
  unfold opens
  split
  · next rest =>
    have hlength : (rest.take (width - 2)).length = width - 2 ↔
        0 + width ≤ ('_' :: '_' :: rest).length := by
      simp only [List.length_take, List.length_cons, width]
      omega
    simp only [Bool.and_eq_true, beq_iff_eq, Bool.not_eq_true', List.contains_eq_mem,
      decide_eq_false_iff_not, newline_mem_take_iff, hlength]
    refine ⟨fun h => ?_, fun h => ⟨h.fits, fun hbreak => ?_⟩⟩
    · obtain ⟨hfits, hnone⟩ := h
      exact ⟨hfits, rfl, rfl, fun k _ hlt hk => hnone ⟨k, by omega, hk⟩⟩
    · obtain ⟨k, hlt, hk⟩ := hbreak
      exact h.unbroken k (Nat.zero_le k) (by omega) hk
  · next hopens =>
    refine iff_of_false (by simp) fun h => ?_
    obtain ⟨rest, hrest⟩ := h.exists_rest
    exact hopens rest hrest

/-! ### The choice among overlapping windows -/

/-- Whether a place lies in a window that begins at one of the places `ps`. -/
def Within (ps : List Nat) (k : Nat) : Prop := ∃ p ∈ ps, p ≤ k ∧ k < p + width

/-- The windows that are chosen from the left, by the places where they begin: they do not overlap,
and a window that is not chosen has one of them reach into it from the left. -/
structure Chosen (s : List Char) (ps : List Nat) : Prop where
  window : ∀ p ∈ ps, WindowAt s p
  apart : ps.Pairwise fun p q => p + width ≤ q
  leftmost : ∀ i, WindowAt s i → Within ps i

/-- A text with the letter of the address for placeholders everywhere in the windows `ps`, and what
it had before everywhere else. -/
structure Filled (s : List Char) (ps : List Nat) (t : List Char) : Prop where
  inside : ∀ k, Within ps k → t[k]? = some 'a'
  outside : ∀ k, ¬ Within ps k → t[k]? = s[k]?

theorem Chosen.apart_of_lt (h : Chosen s ps) (hp : p ∈ ps) (hq : q ∈ ps) (hlt : q < p) :
    q + width ≤ p := by
  obtain ⟨i, hi, rfl⟩ := List.getElem_of_mem hq
  obtain ⟨j, hj, rfl⟩ := List.getElem_of_mem hp
  have hapart := List.pairwise_iff_getElem.1 h.apart
  rcases Nat.lt_trichotomy i j with hij | rfl | hji
  · exact hapart i j hi hj hij
  · exact absurd hlt (Nat.lt_irrefl _)
  · have hback := hapart j i hj hi hji
    omega

/-- Whether a window is chosen is known from the chosen ones to the left of it. -/
theorem Chosen.mem_iff (h : Chosen s ps) :
    p ∈ ps ↔ WindowAt s p ∧ ∀ q < p, q ∈ ps → q + width ≤ p := by
  refine ⟨fun hp => ⟨h.window p hp, fun q hlt hq => h.apart_of_lt hp hq hlt⟩,
    fun ⟨hw, hfree⟩ => ?_⟩
  -- The chosen window that this one lies within is not one to the left of it.
  obtain ⟨q, hq, hle, hlt⟩ := h.leftmost p hw
  rcases Nat.lt_or_eq_of_le hle with hbefore | rfl
  · have hend := hfree q hbefore hq
    omega
  · exact hq

/-- There is one way to choose windows from the left. -/
theorem Chosen.unique (h : Chosen s ps) (h' : Chosen s qs) : ps = qs := by
  have hsorted : ∀ {rs}, Chosen s rs → rs.Pairwise (· < ·) := fun hr =>
    hr.apart.imp fun hle => by unfold width at hle; omega
  refine (hsorted h).eq_of_mem_iff (hsorted h') fun p => ?_
  induction p using Nat.strongRecOn with
  | ind p ih =>
    rw [h.mem_iff, h'.mem_iff]
    refine and_congr_right fun _ => forall₂_congr fun q hlt => ?_
    rw [ih q hlt]

/-! ### The choice of a text and that of its end -/

theorem within_append_iff :
    Within (front ++ ps.map (n + ·)) k ↔ Within front k ∨ n ≤ k ∧ Within ps (k - n) := by
  refine ⟨fun ⟨p, hp, hle, hlt⟩ => ?_, fun h => ?_⟩
  · rcases List.mem_append.1 hp with hp | hp
    · exact .inl ⟨p, hp, hle, hlt⟩
    · obtain ⟨q, hq, rfl⟩ := List.mem_map.1 hp
      exact .inr ⟨by omega, q, hq, by omega, by omega⟩
  · rcases h with ⟨p, hp, hle, hlt⟩ | ⟨hn, q, hq, hle, hlt⟩
    · exact ⟨p, List.mem_append_left _ hp, hle, hlt⟩
    · exact ⟨n + q, List.mem_append_right _ (List.mem_map_of_mem hq), by omega, by omega⟩

section
variable (hends : ∀ p ∈ front, p + width ≤ n)
include hends

/-- Where the windows chosen so far end at some place at the latest, the choice goes on behind it as
if the text began there. -/
theorem Chosen.append (hwindow : ∀ p ∈ front, WindowAt s p)
    (hapart : front.Pairwise fun p q => p + width ≤ q)
    (hleftmost : ∀ i < n, WindowAt s i → Within front i) (h : Chosen (s.drop n) ps) :
    Chosen s (front ++ ps.map (n + ·)) where
  window := by
    intro p hp
    rcases List.mem_append.1 hp with hp | hp
    · exact hwindow p hp
    · obtain ⟨q, hq, rfl⟩ := List.mem_map.1 hp
      exact windowAt_drop_iff.1 (h.window q hq)
  apart := by
    refine List.pairwise_append.2 ⟨hapart, ?_, fun p hp q hq => ?_⟩
    · exact h.apart.map _ fun p q hle => by omega
    · have hend := hends p hp
      obtain ⟨q, -, rfl⟩ := List.mem_map.1 hq
      omega
  leftmost := by
    intro i hi
    rcases Nat.lt_or_ge i n with hlt | hge
    · exact within_append_iff.2 (.inl (hleftmost i hlt hi))
    · refine within_append_iff.2 (.inr ⟨hge, h.leftmost _ (windowAt_drop_iff.2 ?_)⟩)
      rwa [Nat.add_sub_cancel' hge]

/-- What comes before some place is filled by itself. -/
theorem Filled.append (hlength : head.length = n)
    (hinside : ∀ k < n, Within front k → head[k]? = some 'a')
    (houtside : ∀ k < n, ¬ Within front k → head[k]? = s[k]?) (h : Filled (s.drop n) ps t) :
    Filled s (front ++ ps.map (n + ·)) (head ++ t) where
  inside := by
    intro k hk
    rcases within_append_iff.1 hk with hk | ⟨hge, hk⟩
    · obtain ⟨p, hp, -, hlt⟩ := id hk
      have hend := hends p hp
      rw [List.getElem?_append_left (by omega), hinside k (by omega) hk]
    · rw [List.getElem?_append_right (by omega), hlength, h.inside _ hk]
  outside := by
    intro k hk
    obtain ⟨hfront, hrest⟩ := not_or.1 (mt within_append_iff.2 hk)
    rcases Nat.lt_or_ge k n with hlt | hge
    · rw [List.getElem?_append_left (by omega), houtside k hlt hfront]
    · rw [List.getElem?_append_right (by omega), hlength,
        h.outside _ fun hin => hrest ⟨hge, hin⟩, List.getElem?_drop, Nat.add_sub_cancel' hge]

end

/-! ### Linking -/

/-- A text is linked in the windows that are chosen from the left. -/
theorem exists_chosen_filled (s : List Char) : ∃ ps, Chosen s ps ∧ Filled s ps (link s) := by
  fun_induction link s with
  | case1 =>
    refine ⟨[], ⟨by simp, .nil, fun i hi => ?_⟩, ⟨?_, fun k _ => rfl⟩⟩
    · have hfits := hi.fits
      simp [width] at hfits
    · intro k hin
      obtain ⟨p, hp, -⟩ := hin
      cases hp
  | case2 c rest hopens ih =>
    -- A window here is chosen, and the choice goes on behind it.
    obtain ⟨ps, hchosen, hfilled⟩ := ih
    have hends : ∀ p ∈ [0], p + width ≤ width := by simp
    have hhere : ∀ i < width, Within [0] i := fun i hi =>
      ⟨0, List.mem_singleton_self 0, Nat.zero_le i, by omega⟩
    refine ⟨[0] ++ ps.map (width + ·),
      .append hends ?_ (List.pairwise_singleton ..) (fun i hi _ => hhere i hi) hchosen,
      .append hends List.length_replicate (fun k hk _ => ?_)
        (fun k hk hout => absurd (hhere k hk) hout) hfilled⟩
    · intro p hp
      rw [List.mem_singleton.1 hp]
      exact opens_iff_windowAt.1 hopens
    · rw [dummyAddress, List.getElem?_replicate, if_pos hk]
  | case3 c rest hopens ih =>
    -- No window begins here, so the first character stays outside of the choice.
    obtain ⟨ps, hchosen, hfilled⟩ := ih
    have hends : ∀ p ∈ [], p + width ≤ 1 := by simp
    refine ⟨[] ++ ps.map (1 + ·), .append hends (by simp) .nil (fun i hi hw => ?_) hchosen,
      .append hends (List.length_singleton (a := c)) (fun k _ hin => ?_) (fun k hk _ => ?_)
        hfilled⟩
    · obtain rfl : i = 0 := by omega
      exact absurd (opens_iff_windowAt.2 hw) hopens
    · obtain ⟨p, hp, -⟩ := hin
      cases hp
    · obtain rfl : k = 0 := by omega
      rfl

/-- No window is left where the chosen ones have been filled. -/
theorem not_windowAt_of_filled (hchosen : Chosen s ps) (hfilled : Filled s ps t)
    (hlength : t.length = s.length) (i : Nat) : ¬ WindowAt t i := by
  intro h
  have hkept : ∀ k, t[k]? = some '_' → ¬ Within ps k ∧ s[k]? = some '_' := by
    intro k hk
    have hout : ¬ Within ps k := fun hin => by
      rw [hfilled.inside k hin] at hk
      cases hk
    exact ⟨hout, by rw [← hfilled.outside k hout, hk]⟩
  obtain ⟨hout, hfirst⟩ := hkept i h.first
  obtain ⟨-, hsecond⟩ := hkept (i + 1) h.second
  refine hout (hchosen.leftmost i ⟨hlength ▸ h.fits, hfirst, hsecond, fun k hle hlt hk => ?_⟩)
  -- A line end is in no chosen window, so linking would have left it where it is.
  have hbreak : ¬ Within ps k := fun ⟨p, hp, hple, hplt⟩ =>
    (hchosen.window p hp).unbroken k hple hplt hk
  exact h.unbroken k hle hlt ((hfilled.outside k hbreak).trans hk)

theorem not_windowAt_link (s : List Char) (i : Nat) : ¬ WindowAt (link s) i := by
  obtain ⟨ps, hchosen, hfilled⟩ := exists_chosen_filled s
  exact not_windowAt_of_filled hchosen hfilled (length_link s) i

/-- Linking leaves a text as it is exactly when there is no window in it. -/
theorem link_eq_self_iff : link s = s ↔ ∀ i, ¬ WindowAt s i := by
  refine ⟨fun h i => ?_, fun h => ?_⟩
  · rw [← h]
    exact not_windowAt_link s i
  · obtain ⟨ps, hchosen, hfilled⟩ := exists_chosen_filled s
    obtain rfl : ps = [] := List.eq_nil_iff_forall_not_mem.2 fun p hp =>
      h p (hchosen.window p hp)
    exact List.ext_getElem? fun k => hfilled.outside k fun ⟨p, hp, _⟩ => nomatch hp

/-- **Linking is stable.** A linked text is as long as it was; there is one choice of windows from
the left that do not overlap, in which it holds the letter of the address for placeholders and
outside of which it is the text before; no window is left in it, and linking it once more leaves it
as it is. -/
theorem link_stable (s : List Char) :
    (link s).length = s.length ∧
      (∃ ps, (∀ qs, Chosen s qs ↔ qs = ps) ∧ Filled s ps (link s)) ∧
      (∀ i, ¬ WindowAt (link s) i) ∧ link (link s) = link s := by
  obtain ⟨ps, hchosen, hfilled⟩ := exists_chosen_filled s
  have hone : ∀ qs, Chosen s qs ↔ qs = ps := fun qs =>
    ⟨fun h => h.unique hchosen, fun h => h ▸ hchosen⟩
  have hnone := not_windowAt_link s
  exact ⟨length_link s, ⟨ps, hone, hfilled⟩, hnone, link_eq_self_iff.2 hnone⟩

/-- Of two windows in a run of underscores the first is filled, and the last underscore stays. -/
example : link (List.replicate 41 '_') = List.replicate 40 'a' ++ ['_'] := by decide +kernel

end ContractCoverage.Placeholder
