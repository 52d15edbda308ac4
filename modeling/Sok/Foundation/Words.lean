import Mathlib.Data.List.DropRight

/-!
# The words of a text

A word is a longest part without a separator.  `first` and `behind` are the two sides of an
extraction that skips separators and reads up to the next one; extracting until nothing is
found lists the words.
-/

namespace Words

variable {α : Type*} (p : α → Bool)

/-- The parts between the separators, without the empty ones. -/
def words (s : List α) : List (List α) :=
  (s.splitOnP p).filter (!·.isEmpty)

/-- The first word, or nothing. -/
def first (s : List α) : List α :=
  (s.dropWhile p).takeWhile (!p ·)

/-- What is left behind the first word. -/
def behind (s : List α) : List α :=
  (s.dropWhile p).dropWhile (!p ·)

variable {p}

theorem words_append_cons (s : List α) {a : α} (ha : p a = true) (t : List α) :
    words p (s ++ a :: t) = words p s ++ words p t := by
  rw [words, List.splitOnP_append_cons s t ha, List.filter_append]
  rfl

theorem words_nil : words p ([] : List α) = [] := rfl

theorem words_cons_of_pos {a : α} (ha : p a = true) (s : List α) : words p (a :: s) = words p s :=
  words_append_cons [] ha s

theorem words_of_forall {s : List α} (hne : s ≠ []) (h : ∀ a ∈ s, p a = false) :
    words p s = [s] := by
  rw [words, List.splitOnP_eq_singleton h]
  simp [hne]

theorem words_dropWhile (s : List α) : words p (s.dropWhile p) = words p s := by
  induction s with
  | nil => rfl
  | cons a s ih =>
      by_cases ha : p a = true
      · rw [List.dropWhile_cons_of_pos ha, ih, words_cons_of_pos ha]
      · rw [List.dropWhile_cons_of_neg ha]

theorem not_of_dropWhile_eq_cons {q : α → Bool} {s rest : List α} {a : α}
    (h : s.dropWhile q = a :: rest) : q a = false := by
  have hne : s.dropWhile q ≠ [] := by simp [h]
  have hnot := List.head_dropWhile_not q hne
  simpa only [h, List.head_cons] using hnot

/-- Where no word is found there is none. -/
theorem words_of_first_eq_nil {s : List α} (h : first p s = []) : words p s = [] := by
  rw [← words_dropWhile]
  cases hdrop : s.dropWhile p with
  | nil => rfl
  | cons a rest =>
      have ha : p a = false := not_of_dropWhile_eq_cons hdrop
      simp [first, hdrop, ha] at h

/-- Where one is found it comes first, and the others are those behind it. -/
theorem words_of_first_ne_nil {s : List α} (h : first p s ≠ []) :
    words p s = first p s :: words p (behind p s) := by
  have hword : ∀ a ∈ first p s, p a = false := fun a ha => by
    simpa using List.mem_takeWhile_imp ha
  have hsplit : s.dropWhile p = first p s ++ behind p s :=
    (List.takeWhile_append_dropWhile).symm
  rw [← words_dropWhile, hsplit]
  cases hbehind : behind p s with
  | nil => rw [List.append_nil, words_of_forall h hword, words_nil]
  | cons a rest =>
      have ha : p a = true := by
        simpa using not_of_dropWhile_eq_cons hbehind
      rw [words_append_cons _ ha, words_of_forall h hword, words_cons_of_pos ha]
      rfl

end Words
