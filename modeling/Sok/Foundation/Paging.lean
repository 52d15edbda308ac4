import Mathlib.Algebra.BigOperators.Group.Finset.Basic
import Mathlib.Algebra.Order.BigOperators.Group.Finset
import Sok.Foundation.Recency

/-!
# Paging

Keys of different sizes are requested one after another, and a store of bounded capacity has to
hold a key when it is requested.  A `Schedule` is what a store can do that loads on demand and may
evict whatever it likes, also with a view to later requests.

Least recently used is `touch`: the requested key comes first, and the longest prefix that fits
is kept.  Two facts about it are proved.

* A larger capacity always keeps more (`Recency.LongestFit.kept_of_larger` with
  `front_cons_erase`): there is no sequence of requests on which a larger store would do worse.
* It loads at most `pages` times as often as any schedule, where no more than `pages` of the
  requested keys fit at a time (`loads_le`).  The requests are cut into
  phases whose keys fit together but do not fit together with the first key of the next phase.  In
  a phase each key is loaded at most once, and behind its first request every schedule loads at
  least once before the first request of the next phase is served (`Window`).
-/

namespace Paging

open Recency

variable {κ : Type*} {size : κ → ℕ} {capacity pages : ℕ} {keys more phase requests : List κ}
  {key : κ} {asked : κ → Prop}

/-! ## Schedules -/

/-- What a store that loads on demand can do, with the number of loads. -/
inductive Schedule (size : κ → ℕ) (capacity : ℕ) : Finset κ → List κ → ℕ → Prop
  | nil {store : Finset κ} : Schedule size capacity store [] 0
  /-- The key is there; anything may be evicted. -/
  | hit {store next : Finset κ} {key : κ} {requests : List κ} {loads : ℕ} :
      key ∈ store → next ⊆ store → Schedule size capacity next requests loads →
      Schedule size capacity store (key :: requests) loads
  /-- The key is loaded; anything else may be evicted. -/
  | load {store next : Finset κ} {key : κ} {requests : List κ} {loads : ℕ} :
      key ∉ store → key ∈ next → (∀ k ∈ next, k = key ∨ k ∈ store) →
        ∑ k ∈ next, size k ≤ capacity →
      Schedule size capacity next requests loads →
      Schedule size capacity store (key :: requests) (loads + 1)

/-- Distinct keys of a store that fits fit. -/
theorem total_le_sum {store : Finset κ} (hnodup : keys.Nodup) (hmem : ∀ key ∈ keys, key ∈ store) :
    total size keys ≤ ∑ k ∈ store, size k := by
  classical
  calc total size keys = ∑ k ∈ keys.toFinset, size k := (List.sum_toFinset size hnodup).symm
    _ ≤ ∑ k ∈ store, size k := by
        refine Finset.sum_le_sum_of_subset fun k hk => hmem k ?_
        exact List.mem_toFinset.mp hk

/-- Keys that are asked for and fit together are at most `pages`. -/
def AtMost (asked : κ → Prop) (size : κ → ℕ) (capacity pages : ℕ) : Prop :=
  ∀ keys : List κ, keys.Nodup → (∀ key ∈ keys, asked key) → total size keys ≤ capacity →
    keys.length ≤ pages

theorem atMost_of_le {least : ℕ} (hpos : 0 < least) (hleast : ∀ key, asked key → least ≤ size key) :
    AtMost asked size capacity (capacity / least) := by
  intro keys _ hasked hfits
  refine (Nat.le_div_iff_mul_le hpos).mpr (le_trans ?_ hfits)
  have heach : ∀ n ∈ keys.map size, least ≤ n := by
    intro n hn
    obtain ⟨key, hkey, rfl⟩ := List.mem_map.mp hn
    exact hleast key (hasked key hkey)
  simpa [total] using List.card_nsmul_le_sum (keys.map size) least heach

/-! ## Phases -/

/-- What a schedule has done since the first request of the phase was served: it has loaded
(`paid` is 1), or its store has only shrunk from one that fits and has all keys of the phase. -/
def Window (size : κ → ℕ) (capacity : ℕ) (phase : List κ) (store : Finset κ) (paid : ℕ) : Prop :=
  paid = 1 ∨ paid = 0 ∧ ∃ first : Finset κ, store ⊆ first ∧ (∀ key ∈ phase, key ∈ first) ∧
    ∑ k ∈ first, size k ≤ capacity

theorem Window.of_loaded {store : Finset κ} : Window size capacity phase store 1 :=
  Or.inl rfl

section

variable [BEq κ] [LawfulBEq κ]

omit [LawfulBEq κ] in
theorem Window.hit {store next : Finset κ} {paid : ℕ} (h : Window size capacity phase store paid)
    (hmem : key ∈ store) (hsub : next ⊆ store) :
    Window size capacity (key :: phase.erase key) next paid := by
  refine h.imp_right fun ⟨hpaid, first, hstore, hphase, hfits⟩ => ?_
  refine ⟨hpaid, first, hsub.trans hstore, fun other hother => ?_, hfits⟩
  rcases List.mem_cons.mp hother with rfl | hother
  · exact hstore hmem
  · exact hphase other (List.mem_of_mem_erase hother)

/-- A key that does not fit beside the phase is loaded, unless there has been a load before. -/
theorem Window.paid_of_not_fit {store : Finset κ} {paid : ℕ}
    (h : Window size capacity phase store paid) (hnodup : phase.Nodup) (hmem : key ∈ store)
    (hlarge : capacity < total size (key :: phase.erase key)) : paid = 1 := by
  refine h.resolve_right fun ⟨_, first, hstore, hphase, hfits⟩ => ?_
  have hdistinct : (key :: phase.erase key).Nodup :=
    List.nodup_cons.mpr ⟨hnodup.not_mem_erase, hnodup.erase key⟩
  have hle : total size (key :: phase.erase key) ≤ ∑ k ∈ first, size k := by
    apply total_le_sum hdistinct
    intro other hother
    rcases List.mem_cons.mp hother with rfl | hother
    · exact hstore hmem
    · exact hphase other (List.mem_of_mem_erase hother)
  omega

/-! ## Least recently used -/

/-- Use a key: it comes first, and the longest prefix that fits is kept. -/
def touch (size : κ → ℕ) (capacity : ℕ) (key : κ) (keys : List κ) : List κ :=
  fit size capacity (key :: keys.erase key)

/-- The number of requests for keys that are not there. -/
def loads (size : κ → ℕ) (capacity : ℕ) : List κ → List κ → ℕ
  | _, [] => 0
  | keys, key :: requests =>
      (if key ∈ keys then 0 else 1) + loads size capacity (touch size capacity key keys) requests

/-! ## Prefixes -/

/-- Moving a key to the front of a list does the same to its prefixes. -/
theorem front_cons_erase (h : keys <+: more) (key : κ) :
    key :: keys.erase key <+: key :: more.erase key := by
  obtain ⟨rest, rfl⟩ := h
  apply (List.prefix_cons_inj key).mpr
  by_cases hmem : key ∈ keys
  · rw [List.erase_append_left _ hmem]
    exact List.prefix_append _ _
  · rw [List.erase_append_right _ hmem, List.erase_of_not_mem hmem]
    exact List.prefix_append _ _

/-- The keys used last, if they fit together, are still there behind a use of one of them, or of
one that fits beside them. -/
theorem prefix_touch (h : phase <+: keys) (hfits : total size (key :: phase.erase key) ≤ capacity) :
    key :: phase.erase key <+: touch size capacity key keys :=
  (longestFit_fit size capacity _).longest _ (front_cons_erase h key) hfits

/-! ## The bound -/

/-- A key that is loaded is new in the phase. -/
theorem load_add_length_le (h : phase <+: keys) (key : κ) :
    (if key ∈ keys then 0 else 1) + phase.length ≤ (key :: phase.erase key).length := by
  by_cases hmem : key ∈ phase
  · have hpositive := List.length_pos_of_mem hmem
    rw [if_pos (h.subset hmem), List.length_cons, List.length_erase_of_mem hmem]
    omega
  · rw [List.length_cons, List.erase_of_not_mem hmem]
    split <;> omega

omit [LawfulBEq κ] in
/-- A key that fits on its own is the first one behind its use. -/
theorem singleton_prefix_touch (h : size key ≤ capacity) (keys : List κ) :
    [key] <+: touch size capacity key keys := by
  apply (longestFit_fit size capacity _).longest
  · exact (List.prefix_cons_inj key).mpr List.nil_prefix
  · rw [total_cons, total_nil]
    exact h

/-- From the middle of a phase on: the keys of the phase have been requested, and the schedule has
paid for it or not. -/
theorem loads_add_length_le (hpages : AtMost asked size capacity pages) {store : Finset κ}
    {count : ℕ} (hschedule : Schedule size capacity store requests count)
    (hfits : ∀ key ∈ requests, asked key ∧ size key ≤ capacity) {paid : ℕ}
    (hwindow : Window size capacity phase store paid)
    (hstore : ∑ k ∈ store, size k ≤ capacity) (hfront : phase <+: keys) (hnodup : phase.Nodup)
    (hasked : ∀ key ∈ phase, asked key) (hphase : total size phase ≤ capacity) :
    loads size capacity keys requests + phase.length ≤ pages * (count + paid + 1) := by
  induction requests generalizing keys phase store count paid with
  | nil =>
      have hlength := hpages phase hnodup hasked hphase
      have hpositive : pages ≤ pages * (count + paid + 1) := Nat.le_mul_of_pos_right _ (by omega)
      simp only [loads]
      omega
  | cons key requests ih =>
      have hrest : ∀ other ∈ requests, asked other ∧ size other ≤ capacity := fun other hother =>
        hfits other (List.mem_cons_of_mem key hother)
      obtain ⟨hnew, hkey⟩ := hfits key List.mem_cons_self
      unfold loads
      by_cases hbeside : total size (key :: phase.erase key) ≤ capacity
      · -- The phase goes on.
        have hcost := load_add_length_le hfront key
        have hdistinct : (key :: phase.erase key).Nodup :=
          List.nodup_cons.mpr ⟨hnodup.not_mem_erase, hnodup.erase key⟩
        have hboth : ∀ other ∈ key :: phase.erase key, asked other :=
          List.forall_mem_cons.mpr ⟨hnew, fun other hother =>
            hasked other (List.mem_of_mem_erase hother)⟩
        cases hschedule with
        | hit hmem hsub hschedule =>
            have hnext := (Finset.sum_le_sum_of_subset hsub).trans hstore
            have hlater := ih hschedule hrest (hwindow.hit hmem hsub) hnext
              (prefix_touch hfront hbeside) hdistinct hboth hbeside
            omega
        | @load _ _ _ _ count _ _ _ hnext hschedule =>
            have hlater := ih hschedule hrest Window.of_loaded hnext
              (prefix_touch hfront hbeside) hdistinct hboth hbeside
            have hmore : pages * (count + 1 + 1) ≤ pages * (count + 1 + paid + 1) :=
              Nat.mul_le_mul_left pages (by omega)
            omega
      · -- A new phase begins with this request.
        have hlength := hpages phase hnodup hasked hphase
        have hcost : (if key ∈ keys then 0 else 1) ≤ 1 := by split <;> omega
        have hsingle := singleton_prefix_touch hkey keys
        have htotal : total size [key] ≤ capacity := by rw [total_cons, total_nil]; exact hkey
        cases hschedule with
        | @hit _ _ _ _ count hmem hsub hschedule =>
            have hpaid := hwindow.paid_of_not_fit hnodup hmem (not_le.mp hbeside)
            have hnext := (Finset.sum_le_sum_of_subset hsub).trans hstore
            have hlater := ih hschedule hrest
              (Or.inr ⟨rfl, store, hsub, List.forall_mem_singleton.mpr hmem, hstore⟩)
              hnext hsingle (List.nodup_singleton key) (List.forall_mem_singleton.mpr hnew) htotal
            have hphases : pages * (count + paid + 1) = pages * (count + 0 + 1) + pages := by
              rw [hpaid]
              exact Nat.mul_succ pages (count + 1)
            rw [List.length_singleton] at hlater
            omega
        | @load _ next _ _ count _ hmem _ hnext hschedule =>
            have hlater := ih hschedule hrest
              (Or.inr ⟨rfl, next, Finset.Subset.refl next, List.forall_mem_singleton.mpr hmem,
                hnext⟩)
              hnext hsingle (List.nodup_singleton key) (List.forall_mem_singleton.mpr hnew) htotal
            have hphases : pages * (count + 0 + 1) + pages ≤ pages * (count + 1 + paid + 1) := by
              rw [← Nat.mul_succ]
              exact Nat.mul_le_mul_left pages (by omega)
            rw [List.length_singleton] at hlater
            omega

/-- Least recently used loads at most `pages` times as often as any schedule, where both begin with
nothing. -/
theorem loads_le (hpages : AtMost (fun key => key ∈ requests) size capacity pages) {count : ℕ}
    (hschedule : Schedule size capacity ∅ requests count)
    (hfits : ∀ key ∈ requests, size key ≤ capacity) :
    loads size capacity [] requests ≤ pages * count := by
  cases hschedule with
  | nil => exact Nat.zero_le _
  | hit hmem _ _ => exact absurd hmem (Finset.notMem_empty _)
  | @load _ next key requests count _ hmem _ hnext hschedule =>
      -- The first key is loaded by both, and is the first key of a phase.
      have hkey := hfits key List.mem_cons_self
      have htotal : total size [key] ≤ capacity := by rw [total_cons, total_nil]; exact hkey
      have hlater := loads_add_length_le hpages hschedule
        (fun other hother => ⟨List.mem_cons_of_mem key hother,
          hfits other (List.mem_cons_of_mem key hother)⟩)
        (Or.inr ⟨rfl, next, Finset.Subset.refl next, List.forall_mem_singleton.mpr hmem, hnext⟩)
        hnext (singleton_prefix_touch hkey []) (List.nodup_singleton key)
        (List.forall_mem_singleton.mpr List.mem_cons_self) htotal
      unfold loads
      rw [if_neg List.not_mem_nil, Nat.add_comm]
      exact hlater

end

end Paging
