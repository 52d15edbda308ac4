import Mathlib.Data.List.Basic
import Mathlib.Data.List.Infix
import Mathlib.Order.Nat

/-!
# Walking a tree of names

Lexical path resolution: a location is the list of names from the top, a walk is
a list of components, and `up` at the top stays there.

A walk on its own climbs some number of levels above its start and then descends
through some names (`climb`).  `walk_eq` says that this is all its effect on any
location, and `below_walk_iff` reads off when the walk ends at or below a
location: when it names again what it climbed out of.
-/

namespace PathWalk

variable {ν : Type*}

/-- One component of a path. -/
inductive Component (ν : Type*)
  | up
  | name (n : ν)
  deriving DecidableEq

/-- One step from a location. -/
def step (loc : List ν) : Component ν → List ν
  | .up => loc.dropLast
  | .name n => loc ++ [n]

/-- The location a walk ends at. -/
def walk (loc : List ν) (path : List (Component ν)) : List ν :=
  path.foldl step loc

/-- The effect of a walk: so many levels up, then down through `names`. -/
structure Climb (ν : Type*) where
  ups : ℕ
  names : List ν
  deriving DecidableEq

/-- One more component. -/
def Climb.next (c : Climb ν) : Component ν → Climb ν
  | .up => if c.names = [] then ⟨c.ups + 1, []⟩ else ⟨c.ups, c.names.dropLast⟩
  | .name n => ⟨c.ups, c.names ++ [n]⟩

/-- The effect of a walk. -/
def climb (path : List (Component ν)) : Climb ν :=
  path.foldl Climb.next ⟨0, []⟩

/-- Climb and descend from a location. -/
def Climb.apply (c : Climb ν) (loc : List ν) : List ν :=
  loc.take (loc.length - c.ups) ++ c.names

theorem walk_append (loc : List ν) (first second : List (Component ν)) :
    walk loc (first ++ second) = walk (walk loc first) second :=
  List.foldl_append

theorem Climb.apply_next (c : Climb ν) (component : Component ν) (loc : List ν) :
    (c.next component).apply loc = step (c.apply loc) component := by
  cases component with
  | name n => simp [next, apply, step]
  | up =>
      by_cases hnames : c.names = []
      · simp [next, apply, step, hnames, List.dropLast_eq_take, Nat.sub_sub, List.take_take]
        omega
      · simp [next, apply, step, hnames, List.dropLast_append_of_ne_nil]

/-- A walk climbs and then descends, from wherever it starts. -/
theorem walk_eq (loc : List ν) (path : List (Component ν)) :
    walk loc path = (climb path).apply loc := by
  -- from wherever the walk has come to
  have hgen : ∀ c : Climb ν,
      path.foldl step (c.apply loc) = (path.foldl Climb.next c).apply loc := by
    induction path with
    | nil => intro c; rfl
    | cons component path ih =>
        intro c
        rw [List.foldl_cons, List.foldl_cons, ← Climb.apply_next, ih]
  have hstart : (⟨0, []⟩ : Climb ν).apply loc = loc := by simp [Climb.apply]
  calc walk loc path = path.foldl step ((⟨0, []⟩ : Climb ν).apply loc) := by rw [hstart, walk]
    _ = (climb path).apply loc := hgen ⟨0, []⟩

/-- A location that lies on one line with the start of a walk is above the end
of the walk exactly when the descent names again the part of it the walk climbed
out of. -/
theorem below_walk_iff {target loc : List ν} (path : List (Component ν))
    (hline : target <+: loc ∨ loc <+: target) :
    target <+: walk loc path ↔
      target.drop (loc.length - (climb path).ups) <+: (climb path).names := by
  rw [walk_eq, Climb.apply]
  generalize (climb path).names = names
  have hn : loc.length - (climb path).ups ≤ loc.length := Nat.sub_le _ _
  generalize loc.length - (climb path).ups = n at hn
  by_cases hlen : n ≤ target.length
  · -- the walk turns at or above the target, where the two locations still agree
    have hcommon : target.take n = loc.take n := by
      rcases hline with ⟨t, rfl⟩ | ⟨t, rfl⟩
      · rw [List.take_append_of_le_length hlen]
      · rw [List.take_append_of_le_length hn]
    conv_lhs => rw [← List.take_append_drop n target, hcommon]
    exact List.prefix_append_right_inj _
  · -- the walk turns below the target and stays there
    have hfront : target <+: loc := by
      rcases hline with h | h
      · exact h
      · exact absurd (hn.trans h.length_le) hlen
    have htake : target <+: loc.take n :=
      List.prefix_take_iff.mpr ⟨hfront, by omega⟩
    rw [List.drop_eq_nil_of_le (by omega)]
    exact ⟨fun _ => List.nil_prefix, fun _ => htake.trans (List.prefix_append _ _)⟩

/-- A walk of at most one component stays on one line with its start. -/
theorem line_walk {loc : List ν} {path : List (Component ν)} (h : path.length ≤ 1) :
    walk loc path <+: loc ∨ loc <+: walk loc path := by
  match path, h with
  | [], _ => exact Or.inl List.prefix_rfl
  | [.up], _ => exact Or.inl (List.dropLast_prefix loc)
  | [.name n], _ => exact Or.inr (List.prefix_append loc [n])

end PathWalk
