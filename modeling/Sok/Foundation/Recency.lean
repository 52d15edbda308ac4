import Mathlib.Algebra.BigOperators.Group.List.Basic
import Mathlib.Algebra.GroupWithZero.Nat
import Mathlib.Algebra.Order.BigOperators.Group.List
import Mathlib.Data.List.Nodup

/-!
# Recency lists under a size bound

Keys in the order of their last use, the most recent first, each with a size.
Dropping the last key while the total is over the capacity leaves the longest
prefix that fits (`fit`); using a key moves it to the front and keeps the times
of use strictly decreasing.
-/

namespace Recency

variable {κ ν ι : Type*} {size : κ → ℕ} {capacity : ℕ} {keys : List κ}

/-! ## Totals -/

/-- The sizes of the keys of a list, added up. -/
def total (size : κ → ℕ) (keys : List κ) : ℕ :=
  (keys.map size).sum

@[simp] theorem total_nil : total size [] = 0 := rfl

@[simp] theorem total_cons (key : κ) : total size (key :: keys) = size key + total size keys := by
  simp [total]

@[simp] theorem total_append (front back : List κ) :
    total size (front ++ back) = total size front + total size back := by
  simp [total]

theorem total_congr {other : κ → ℕ} (h : ∀ key ∈ keys, size key = other key) :
    total size keys = total other keys := by
  unfold total
  rw [List.map_congr_left h]

theorem total_erase [BEq κ] [LawfulBEq κ] {key : κ} (h : key ∈ keys) :
    size key + total size (keys.erase key) = total size keys := by
  rw [← total_cons]
  exact ((List.perm_cons_erase h).map size).sum_eq.symm

/-! ## The longest prefix that fits -/

/-- The longest prefix whose total is within the capacity. -/
def fit (size : κ → ℕ) : ℕ → List κ → List κ
  | _, [] => []
  | capacity, key :: keys =>
      if size key ≤ capacity then key :: fit size (capacity - size key) keys else []

/-- `kept` is the longest prefix of `keys` within the capacity: any other one
is a prefix of it. -/
structure LongestFit (size : κ → ℕ) (capacity : ℕ) (keys kept : List κ) : Prop where
  kept_prefix : kept <+: keys
  within : total size kept ≤ capacity
  longest : ∀ other, other <+: keys → total size other ≤ capacity → other <+: kept

/-- A key that fits on its own is kept when it is at the front. -/
theorem LongestFit.mem_of_le {key : κ} {keys kept : List κ}
    (h : LongestFit size capacity (key :: keys) kept) (hle : size key ≤ capacity) : key ∈ kept := by
  have hsingle : [key] <+: kept := by
    refine h.longest [key] ((List.prefix_cons_inj key).mpr List.nil_prefix) ?_
    rw [total_cons, total_nil]
    exact hle
  exact hsingle.subset (List.mem_singleton_self key)

theorem longestFit_fit (size : κ → ℕ) (capacity : ℕ) (keys : List κ) :
    LongestFit size capacity keys (fit size capacity keys) := by
  induction keys generalizing capacity with
  | nil => exact ⟨List.prefix_rfl, Nat.zero_le _, fun other hother _ => hother⟩
  | cons key keys ih =>
      unfold fit
      split
      case isTrue hle =>
        obtain ⟨hfront, hwithin, hlongest⟩ := ih (capacity - size key)
        refine ⟨(List.prefix_cons_inj key).mpr hfront, ?_, ?_⟩
        · rw [total_cons]
          omega
        · intro other hother htotal
          cases other with
          | nil => exact List.nil_prefix
          | cons first rest =>
              obtain ⟨rfl, hrest⟩ := List.cons_prefix_cons.mp hother
              rw [total_cons] at htotal
              refine (List.prefix_cons_inj first).mpr (hlongest rest hrest ?_)
              omega
      case isFalse hlt =>
        refine ⟨List.nil_prefix, Nat.zero_le _, ?_⟩
        intro other hother htotal
        cases other with
        | nil => exact List.nil_prefix
        | cons first rest =>
            obtain ⟨rfl, -⟩ := List.cons_prefix_cons.mp hother
            rw [total_cons] at htotal
            omega

/-- Of a longer list more is kept, if the capacity is not smaller. -/
theorem LongestFit.kept_of_larger {more kept keptMore : List κ} {other : κ → ℕ} {larger : ℕ}
    (hsmall : LongestFit size capacity keys kept) (hlarge : LongestFit other larger more keptMore)
    (hle : capacity ≤ larger) (h : keys <+: more) (hsize : ∀ key ∈ keys, size key = other key) :
    kept <+: keptMore := by
  apply hlarge.longest
  · exact hsmall.kept_prefix.trans h
  · calc total other kept = total size kept :=
          (total_congr fun key hkey => hsize key (hsmall.kept_prefix.subset hkey)).symm
      _ ≤ capacity := hsmall.within
      _ ≤ larger := hle

/-- There is one longest prefix that fits, and it depends on the sizes of the keys only. -/
theorem LongestFit.eq_fit {kept : List κ} {other : κ → ℕ} (h : LongestFit size capacity keys kept)
    (hsize : ∀ key ∈ keys, size key = other key) : kept = fit other capacity keys := by
  have hfit := longestFit_fit other capacity keys
  have hforth := h.kept_of_larger hfit le_rfl List.prefix_rfl hsize
  have hback := hfit.kept_of_larger h le_rfl List.prefix_rfl fun key hkey => (hsize key hkey).symm
  exact hforth.eq_of_length_le hback.length_le

theorem fit_of_total_le (h : total size keys ≤ capacity) : fit size capacity keys = keys :=
  have hfit := longestFit_fit size capacity keys
  hfit.kept_prefix.eq_of_length_le (hfit.longest keys List.prefix_rfl h).length_le

theorem fit_concat_of_lt {key : κ} (h : capacity < total size (keys ++ [key])) :
    fit size capacity (keys ++ [key]) = fit size capacity keys := by
  have hwhole := longestFit_fit size capacity (keys ++ [key])
  have hfront := longestFit_fit size capacity keys
  have hshort : fit size capacity (keys ++ [key]) <+: keys := by
    refine (List.prefix_concat_iff.mp hwhole.kept_prefix).resolve_left fun heq => ?_
    have := hwhole.within
    rw [heq] at this
    omega
  apply List.IsPrefix.eq_of_length_le
  · exact hfront.longest _ hshort hwhole.within
  · exact (hwhole.longest _ (hfront.kept_prefix.trans (List.prefix_append keys [key]))
      hfront.within).length_le

theorem fit_congr {other : κ → ℕ} (h : ∀ key ∈ keys, size key = other key) :
    fit size capacity keys = fit other capacity keys := by
  induction keys generalizing capacity with
  | nil => rfl
  | cons key keys ih =>
      unfold fit
      rw [h key List.mem_cons_self, ih fun k hk => h k (List.mem_cons_of_mem key hk)]

/-! ## Nodes with an identity -/

/-- Erasing a node by its identity erases its key, when no two nodes share an
identity or a key. -/
theorem map_eraseP_eq_erase [DecidableEq ι] [BEq κ] [LawfulBEq κ] {name : ν → ι} {key : ν → κ}
    {nodes : List ν} {node : ν} (hname : (nodes.map name).Nodup) (hkey : (nodes.map key).Nodup)
    (hmem : node ∈ nodes) :
    (nodes.eraseP fun other => name other = name node).map key =
      (nodes.map key).erase (key node) := by
  induction nodes with
  | nil => exact absurd hmem List.not_mem_nil
  | cons head rest ih =>
      rw [List.map_cons, List.nodup_cons] at hname hkey
      rcases List.mem_cons.mp hmem with rfl | hrest
      · simp
      · have hother : ¬ name head = name node := fun h =>
          hname.1 (h ▸ List.mem_map_of_mem hrest)
        have hkeys : ¬ key head = key node := fun h => hkey.1 (h ▸ List.mem_map_of_mem hrest)
        rw [List.eraseP_cons_of_neg (by simpa using hother), List.map_cons, List.map_cons,
          List.erase_cons_tail (by simpa using hkeys), ih hname.2 hkey.2 hrest]

/-! ## Times of use -/

/-- The keys in strictly decreasing order of the time of their last use. -/
def Decreasing (time : κ → ℕ) (keys : List κ) : Prop :=
  keys.Pairwise fun newer older => time older < time newer

theorem Decreasing.use [DecidableEq κ] [BEq κ] [LawfulBEq κ] {time : κ → ℕ} {now : ℕ}
    (h : Decreasing time keys)
    (hnodup : keys.Nodup) (hpast : ∀ key ∈ keys, time key < now) (key : κ) :
    Decreasing (Function.update time key now) (key :: keys.erase key) := by
  have hne : ∀ other ∈ keys.erase key, other ≠ key := fun other hother heq =>
    hnodup.not_mem_erase (heq ▸ hother)
  refine List.pairwise_cons.mpr ⟨?_, ?_⟩
  · intro other hother
    rw [Function.update_self, Function.update_of_ne (hne other hother)]
    exact hpast other (List.mem_of_mem_erase hother)
  · refine (h.sublist List.erase_sublist).imp_of_mem ?_
    intro newer older hnewer holder hlt
    rw [Function.update_of_ne (hne newer hnewer), Function.update_of_ne (hne older holder)]
    exact hlt

end Recency
