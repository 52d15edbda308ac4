import Mathlib.Data.List.Infix

/-!
# Searching a list for a pattern

`find` is the position of the first occurrence of a pattern.
-/

namespace Search

variable {α : Type*} [DecidableEq α]

/-- The position of the first occurrence of `pat`. -/
def find (pat : List α) : List α → Option ℕ
  | [] => if pat = [] then some 0 else none
  | a :: s => if pat <+: a :: s then some 0 else (find pat s).map (· + 1)

theorem find_eq_none_iff (pat s : List α) : find pat s = none ↔ ¬ pat <:+: s := by
  induction s with
  | nil => simp [find]
  | cons a s ih =>
      by_cases h : pat <+: a :: s
      · simp [find, h, h.isInfix]
      · simp [find, h, ih, List.infix_cons_iff]

theorem exists_find {pat s : List α} (h : pat <:+: s) : ∃ i, find pat s = some i :=
  Option.ne_none_iff_exists'.mp fun hnone => (find_eq_none_iff pat s).mp hnone h

theorem infix_of_find {pat s : List α} {i : ℕ} (h : find pat s = some i) : pat <:+: s := by
  by_contra hnot
  rw [(find_eq_none_iff pat s).mpr hnot] at h
  exact absurd h (by simp)

theorem find_eq_zero {pat s : List α} (h : pat <+: s) : find pat s = some 0 := by
  cases s with
  | nil => simp [find, List.prefix_nil.mp h]
  | cons a s => simp [find, h]

/-- A single element is found behind a front without it. -/
theorem find_singleton_append {a : α} {front : List α} (rest : List α) (h : a ∉ front) :
    find [a] (front ++ a :: rest) = some front.length := by
  induction front with
  | nil => exact find_eq_zero (by simp)
  | cons b front ih =>
      rw [List.mem_cons, not_or] at h
      have hb : ¬ [a] <+: b :: (front ++ a :: rest) := by
        simpa using h.1
      simp [find, hb, ih h.2]

omit [DecidableEq α] in
theorem infix_of_prefix_drop {pat s : List α} {k : ℕ} (h : pat <+: s.drop k) : pat <:+: s :=
  h.isInfix.trans (List.drop_suffix k s).isInfix

omit [DecidableEq α] in
theorem tail_prefix_drop {a : α} {pat s : List α} {k : ℕ} (h : a :: pat <+: s.drop k) :
    pat <+: s.drop (k + 1) := by
  obtain ⟨rest, hrest⟩ := h
  rw [← List.drop_drop, ← hrest]
  exact ⟨rest, rfl⟩

/-- A pattern found at `i` stands there. -/
theorem prefix_drop_of_find {pat s : List α} {i : ℕ} (h : find pat s = some i) :
    pat <+: s.drop i := by
  induction s generalizing i with
  | nil =>
      by_cases hpat : pat = []
      · simp [hpat]
      · simp [find, hpat] at h
  | cons a s ih =>
      by_cases hp : pat <+: a :: s
      · obtain rfl : 0 = i := by simpa [find, hp] using h
        exact hp
      · obtain ⟨j, hj, rfl⟩ : ∃ j, find pat s = some j ∧ j + 1 = i := by simpa [find, hp] using h
        simpa using ih hj

/-- A pattern found at `i` does not occur in a prefix that ends before the
occurrence at `i` does. -/
theorem not_infix_take_of_find {pat s : List α} {i n : ℕ} (h : find pat s = some i)
    (hn : n < i + pat.length) : ¬ pat <:+: s.take n := by
  induction s generalizing i n with
  | nil =>
      by_cases hpat : pat = []
      · simp only [find, hpat, if_true, Option.some.injEq] at h
        simp [hpat, ← h] at hn
      · simp [find, hpat] at h
  | cons a s ih =>
      intro hoccurs
      cases n with
      | zero =>
          have hpat : pat = [] := by simpa using hoccurs
          rw [find_eq_zero (hpat ▸ List.nil_prefix)] at h
          simp [hpat, ← Option.some.inj h] at hn
      | succ n =>
          rw [List.take_succ_cons, List.infix_cons_iff] at hoccurs
          by_cases hp : pat <+: a :: s
          · obtain rfl : 0 = i := by simpa [find, hp] using h
            -- the prefix is too short to hold the pattern
            have hlen := hoccurs.elim (fun hpre => hpre.length_le)
              (fun hinf => hinf.length_le.trans (Nat.le_succ _))
            simp only [List.length_cons, List.length_take] at hlen
            omega
          · obtain ⟨j, hj, rfl⟩ : ∃ j, find pat s = some j ∧ j + 1 = i := by
              simpa [find, hp] using h
            rcases hoccurs with hpre | hinf
            · exact hp (hpre.trans (List.prefix_cons_inj a |>.mpr (List.take_prefix n s)))
            · exact ih hj (by omega) hinf

/-- The first occurrence is not moved by what follows it. -/
theorem find_append {pat s : List α} {i : ℕ} (rest : List α) (h : find pat s = some i) :
    find pat (s ++ rest) = some i := by
  induction s generalizing i with
  | nil =>
      by_cases hpat : pat = []
      · simp only [find, hpat, if_true, Option.some.injEq] at h
        simp [hpat, ← h, find_eq_zero]
      · simp [find, hpat] at h
  | cons a s ih =>
      by_cases hp : pat <+: a :: s
      · obtain rfl : 0 = i := by simpa [find, hp] using h
        exact find_eq_zero (hp.trans (List.prefix_append _ _))
      · obtain ⟨j, hj, rfl⟩ : ∃ j, find pat s = some j ∧ j + 1 = i := by simpa [find, hp] using h
        have hlen : pat.length ≤ s.length := by
          have hpre := (prefix_drop_of_find hj).length_le
          simp only [List.length_drop] at hpre
          omega
        -- there is an occurrence in `s`, so one at the front would not reach into `rest`
        have hnot : ¬ pat <+: a :: (s ++ rest) := fun hpre =>
          hp (List.prefix_of_prefix_length_le hpre (List.prefix_append (a :: s) rest) (by
            rw [List.length_cons]
            omega))
        simp [find, hnot, ih hj]

/-- A pattern found at `i` occurs in every prefix that reaches to its end. -/
theorem infix_take_iff_of_find {pat s : List α} {i : ℕ} (h : find pat s = some i) (n : ℕ) :
    pat <:+: s.take n ↔ i + pat.length ≤ n := by
  constructor
  · intro hoccurs
    exact not_lt.mp fun hlt => not_infix_take_of_find h hlt hoccurs
  · intro hle
    have hpre : pat <+: (s.take n).drop i := by
      rw [List.drop_take]
      exact List.prefix_take_iff.mpr ⟨prefix_drop_of_find h, by omega⟩
    exact infix_of_prefix_drop hpre

theorem find_add_length_le {pat s : List α} {i : ℕ} (h : find pat s = some i) :
    i + pat.length ≤ s.length := by
  have hoccurs : pat <:+: s.take s.length := by
    rw [List.take_length]
    exact infix_of_find h
  exact (infix_take_iff_of_find h s.length).mp hoccurs

theorem exists_find_le {pat s : List α} {k : ℕ} (h : pat <+: s.drop k) :
    ∃ i ≤ k, find pat s = some i := by
  obtain ⟨i, hfind⟩ := exists_find (infix_of_prefix_drop h)
  have htake : pat <:+: s.take (k + pat.length) := by
    have hpre : pat <+: (s.take (k + pat.length)).drop k := by
      rw [List.drop_take, Nat.add_sub_cancel_left]
      exact List.prefix_take_iff.mpr ⟨h, le_rfl⟩
    exact infix_of_prefix_drop hpre
  have hle := (infix_take_iff_of_find hfind _).mp htake
  exact ⟨i, by omega, hfind⟩

/-- A front in which no occurrence begins is skipped. -/
theorem find_append_of_no_start {pat front s : List α}
    (h : ∀ k < front.length, ¬ pat <+: (front ++ s).drop k) :
    find pat (front ++ s) = (find pat s).map (front.length + ·) := by
  induction front with
  | nil => simp
  | cons a front ih =>
      have hhead : ¬ pat <+: a :: (front ++ s) := h 0 (Nat.succ_pos _)
      have htail : ∀ k < front.length, ¬ pat <+: (front ++ s).drop k := fun k hk =>
        h (k + 1) (Nat.succ_lt_succ hk)
      rw [List.cons_append, find, if_neg hhead, ih htail, Option.map_map]
      congr 1
      funext i
      simp only [Function.comp_apply, List.length_cons]
      omega

end Search
