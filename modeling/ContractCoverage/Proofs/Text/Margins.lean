import ContractCoverage.Text.Blank
import Mathlib.Data.List.TakeWhile

/-! Taking characters of a class off the ends of a text.

What is taken off in front and behind goes back on (`takeWhile_trim_trailing`), and what has been
put around a text that neither begins nor ends with the class is taken off again
(`trim_append`). -/
namespace ContractCoverage.Text

variable {p : Char → Bool}

/-- A text without the characters of a class at its end. -/
def trimEnd (p : Char → Bool) (s : List Char) : List Char := (s.reverse.dropWhile p).reverse

theorem trim_eq (p : Char → Bool) (s : List Char) : trim p s = trimEnd p (s.dropWhile p) := rfl

/-- Nothing is taken off in front of what a character begins that is not of the class. -/
theorem dropWhile_append_of_head (s : List Char) {t : List Char}
    (h : ∀ c ∈ t.head?, p c = false) : (s ++ t).dropWhile p = s.dropWhile p ++ t := by
  rw [List.dropWhile_append]
  split
  · next hs =>
    rw [List.isEmpty_iff.1 hs]
    cases t with
    | nil => rfl
    | cons c t => rw [List.dropWhile_cons_of_neg (by simp [h c rfl])]; rfl
  · rfl

/-- Nothing is taken off behind what ends with a character that is not of the class. -/
theorem trimEnd_append_of_last {s : List Char} (h : ∀ c ∈ s.getLast?, p c = false)
    (t : List Char) : trimEnd p (s ++ t) = s ++ trimEnd p t := by
  have hreverse : ∀ c ∈ s.reverse.head?, p c = false := by
    rw [List.head?_reverse]
    exact h
  rw [trimEnd, List.reverse_append, dropWhile_append_of_head t.reverse hreverse,
    List.reverse_append, List.reverse_reverse]
  rfl

theorem trimEnd_of_last {s : List Char} (h : ∀ c ∈ s.getLast?, p c = false) : trimEnd p s = s := by
  have happend := trimEnd_append_of_last h []
  simpa [trimEnd] using happend

theorem trimEnd_concat_of_pos {c : Char} (h : p c = true) (s : List Char) :
    trimEnd p (s ++ [c]) = trimEnd p s := by
  rw [trimEnd, List.reverse_append, List.reverse_singleton, List.singleton_append,
    List.dropWhile_cons_of_pos h]
  rfl

theorem trimEnd_concat_of_neg {c : Char} (h : p c = false) (s : List Char) :
    trimEnd p (s ++ [c]) = s ++ [c] := by
  apply trimEnd_of_last
  intro last hlast
  rw [List.getLast?_concat] at hlast
  cases hlast
  exact h

/-- A text is what is left of it and characters of the class. -/
theorem exists_of_trimEnd (p : Char → Bool) (s : List Char) :
    ∃ margin, s = trimEnd p s ++ margin ∧ ∀ c ∈ margin, p c = true := by
  refine ⟨(s.reverse.takeWhile p).reverse, ?_, fun c hc => ?_⟩
  · rw [trimEnd, ← List.reverse_append, List.takeWhile_append_dropWhile, List.reverse_reverse]
  · exact List.all_eq_true.1 List.all_takeWhile c (List.mem_reverse.1 hc)

theorem mem_of_mem_trim {s : List Char} {c : Char} (h : c ∈ trim p s) : c ∈ s := by
  have hdrop := List.mem_reverse.1 ((List.dropWhile_sublist p).mem (List.mem_reverse.1 h))
  exact (List.dropWhile_sublist p).mem hdrop

/-- The characters of a class at the end of a text, when those in front have been taken off. -/
def trailing (p : Char → Bool) (s : List Char) : List Char :=
  ((s.dropWhile p).reverse.takeWhile p).reverse

theorem of_mem_trailing {s : List Char} {c : Char} (h : c ∈ trailing p s) : p c = true :=
  List.all_eq_true.1 List.all_takeWhile c (List.mem_reverse.1 h)

/-- What is taken off a text goes back on. -/
theorem takeWhile_trim_trailing (p : Char → Bool) (s : List Char) :
    s.takeWhile p ++ (trim p s ++ trailing p s) = s := by
  rw [trim, trailing, ← List.reverse_append, List.takeWhile_append_dropWhile, List.reverse_reverse,
    List.takeWhile_append_dropWhile]

/-- What has been put around a text is taken off again. -/
theorem trim_append {before s after : List Char} (hbefore : ∀ c ∈ before, p c = true)
    (hafter : ∀ c ∈ after, p c = true) (hhead : ∀ c ∈ s.head?, p c = false)
    (hlast : ∀ c ∈ s.getLast?, p c = false) : trim p (before ++ (s ++ after)) = s := by
  have hnone : ∀ {t : List Char}, (∀ c ∈ t, p c = true) → t.dropWhile p = [] := fun h =>
    List.dropWhile_eq_nil_iff.2 h
  have hend : trimEnd p after = [] := by
    rw [trimEnd, hnone fun c hc => hafter c (List.mem_reverse.1 hc), List.reverse_nil]
  rw [trim_eq, List.dropWhile_append_of_pos hbefore]
  cases s with
  | nil => rw [List.nil_append, hnone hafter]; rfl
  | cons c s =>
    have hc : p c = false := hhead c rfl
    rw [List.cons_append, List.dropWhile_cons_of_neg (by simp [hc]), ← List.cons_append,
      trimEnd_append_of_last hlast, hend, List.append_nil]

end ContractCoverage.Text
