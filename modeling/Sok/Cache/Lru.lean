import Sok.Cache.Representation

/-!
# The eviction policy

`lru_list_` is exactly the recency list of the cache: in every run it holds the
cached paths in the order of their last successful `get`, a call that loads a
file keeps the longest prefix that fits, and so does a change of the limit.

The time of the last `get` is not in the source; a run carries it along.

## Strategy

What one call may do is `LruStep`, in the terms of the recency library.  That every call
is such a step follows from `Got` and `Evicted` without another induction: `Evicted` says
what is left, and the longest prefix that fits depends on the sizes of the paths only.

The order of the times is a second invariant (`Ordered`).  A call leaves a part of the old
list, with at most one path put in front, and that path has just been given a time above
all others; a part of a decreasing list is decreasing.
-/

namespace Sok.FileCache

open Recency (Decreasing LongestFit)

/-! ## One call on the list -/

/-- The cached files, without their iterators. -/
def contents (cache : FileCache) (path : Bytes) : Option LoadedFile :=
  (cache.files path).map CachedFile.toLoadedFile

/-- What `get` answers when it has called `load_file`. -/
def Load.answer : Load → CacheAnswer
  | .loaded file => .found file.content file.mimeType
  | .failed => .missing
  | .throws => .throws

/-- What the policy lets one call do. -/
inductive LruStep (cache : FileCache) : Op → FileCache → Prop
  /-- A fresh hit moves the path to the front and drops nothing. -/
  | hit {path : Bytes} {calls : FileCalls} {file : CachedFile} {next : FileCache} :
      cache.files path = some file → isFileModified calls file.lastModified = false →
      next.paths = path :: cache.paths.erase path → next.contents = cache.contents →
      next.maxSize = cache.maxSize →
      cache.get path calls = some (next, .found file.content file.mimeType) →
      LruStep cache (.get path calls) next
  /-- A loaded file comes first, and the longest prefix that fits is kept. -/
  | load {path : Bytes} {calls : FileCalls} {file : LoadedFile} {next : FileCache} :
      cache.Misses path calls → loadFile path calls = .loaded file →
      LongestFit (Function.update cache.fileSizeAt path file.fileSize) cache.maxSize
        (path :: cache.paths.erase path) next.paths →
      (file.fileSize ≤ cache.maxSize → path ∈ next.paths) →
      (∀ other ∈ next.paths,
        next.contents other = Function.update cache.contents path (some file) other) →
      next.maxSize = cache.maxSize →
      cache.get path calls = some (next, (loadFile path calls).answer) →
      LruStep cache (.get path calls) next
  /-- A file that cannot be loaded loses the entry it had. -/
  | unavailable {path : Bytes} {calls : FileCalls} {next : FileCache} :
      cache.Misses path calls → (∀ file, loadFile path calls ≠ .loaded file) →
      next.paths = cache.paths.erase path →
      next.contents = Function.update cache.contents path none →
      next.maxSize = cache.maxSize →
      cache.get path calls = some (next, (loadFile path calls).answer) →
      LruStep cache (.get path calls) next
  /-- A new limit is stored and keeps the longest prefix that fits. -/
  | setMaxSize {maxSize : ℕ} {next : FileCache} :
      next.maxSize = maxSize →
      LongestFit cache.fileSizeAt maxSize cache.paths next.paths →
      (∀ path ∈ next.paths, next.contents path = cache.contents path) →
      LruStep cache (.setMaxSize maxSize) next

section

variable {cache next : FileCache} {path : Bytes} {calls : FileCalls}

theorem contents_refresh {file : CachedFile} (hfile : cache.files path = some file) :
    (cache.refresh path file).contents = cache.contents :=
  funext (loaded_refresh hfile)

theorem contents_beforeLoad :
    (cache.beforeLoad path).contents = Function.update cache.contents path none := by
  funext other
  unfold contents
  by_cases heq : other = path
  · subst heq
    rw [Function.update_self]
    unfold beforeLoad
    cases hfile : cache.files other with
    | none => simp [hfile]
    | some file => simp
  · rw [Function.update_of_ne heq, files_beforeLoad_of_ne heq]

theorem contents_insert (loaded : LoadedFile) :
    (cache.insert path loaded).contents = Function.update cache.contents path (some loaded) := by
  funext other
  unfold contents
  rw [files_insert]
  by_cases heq : other = path
  · subst heq
    simp
  · rw [Function.update_of_ne heq, Function.update_of_ne heq]

theorem fileSizeAt_eq (cache : FileCache) (path : Bytes) :
    cache.fileSizeAt path = (cache.contents path).elim 0 LoadedFile.fileSize := by
  unfold fileSizeAt contents
  cases cache.files path <;> rfl

theorem fileSizeAt_insert_beforeLoad (loaded : LoadedFile) :
    ((cache.beforeLoad path).insert path loaded).fileSizeAt =
      Function.update cache.fileSizeAt path loaded.fileSize := by
  funext other
  rw [fileSizeAt_eq, contents_insert, contents_beforeLoad, Function.update_idem]
  by_cases heq : other = path
  · subst heq
    simp
  · rw [Function.update_of_ne heq, Function.update_of_ne heq, fileSizeAt_eq]

/-- An eviction loop that did not start from a wrapped counter keeps the longest
prefix that fits. -/
theorem Evicted.longestFit (h : Evicted cache next) (hwrap : cache.currentSize.wrapped = false) :
    LongestFit cache.fileSizeAt cache.maxSize cache.paths next.paths := by
  rw [(h.of_not_wrapped hwrap).2]
  exact Recency.longestFit_fit _ _ _

theorem Evicted.contents (h : Evicted cache next) :
    ∀ path ∈ next.paths, next.contents path = cache.contents path := by
  intro path hpath
  unfold FileCache.contents
  rw [h.kept path hpath]

theorem maxSize_of_got {answer : CacheAnswer} (h : Got cache path calls next answer) :
    next.maxSize = cache.maxSize := by
  cases h with
  | hit _ _ => rfl
  | failed _ _ => exact maxSize_beforeLoad
  | threw _ _ => exact maxSize_beforeLoad
  | loaded _ _ hevicted => exact hevicted.maxSize.trans maxSize_beforeLoad

theorem Linked.lruStep_get (h : cache.Linked) (hexact : cache.Exact)
    (haddr : cache.Addressable (.get path calls)) {answer : CacheAnswer}
    (hget : cache.get path calls = some (next, answer)) : LruStep cache (.get path calls) next := by
  obtain ⟨-, -, hpaths, -⟩ := h.beforeLoad path
  have hgot := h.got_of_get hget
  have hmax := maxSize_of_got hgot
  cases hgot with
  | hit hfile hfresh =>
      exact .hit hfile hfresh (h.paths_refresh hfile) (contents_refresh hfile) hmax hget
  | failed hmisses hload =>
      refine .unavailable hmisses (by simp [hload]) hpaths contents_beforeLoad hmax ?_
      rw [hget, hload, Load.answer]
  | threw hmisses hload =>
      refine .unavailable hmisses (by simp [hload]) hpaths contents_beforeLoad hmax ?_
      rw [hget, hload, Load.answer]
  | @loaded file _ hmisses hload hevicted =>
      have hwrap := h.not_wrapped_insert hexact hload haddr
      have hfit := hevicted.longestFit hwrap
      rw [fileSizeAt_insert_beforeLoad, maxSize_insert, maxSize_beforeLoad, paths_insert,
        hpaths] at hfit
      refine .load hmisses hload hfit (fun hle => ?_) (fun other hother => ?_) hmax ?_
      · refine hfit.mem_of_le ?_
        rw [Function.update_self]
        exact hle
      · rw [hevicted.contents other hother, contents_insert, contents_beforeLoad,
          Function.update_idem]
      · rw [hget, hload, Load.answer]

theorem Linked.lruStep (h : cache.Linked) (hexact : cache.Exact) {op : Op}
    (haddr : cache.Addressable op) (hstep : system.step cache op = some next) :
    LruStep cache op next := by
  cases op with
  | get path calls =>
      obtain ⟨⟨_, answer⟩, hget, rfl⟩ := Option.map_eq_some_iff.mp hstep
      exact h.lruStep_get hexact haddr hget
  | setMaxSize maxSize =>
      obtain ⟨next', heq, hevicted⟩ := h.setMaxSize maxSize
      obtain rfl : next' = next := Option.some.inj (heq.symm.trans hstep)
      exact .setMaxSize hevicted.maxSize (hevicted.longestFit hexact.not_wrapped) hevicted.contents

end

/-! ## Runs with the times of use -/

/-- A cache, the number of calls so far, and for each path the time of the last
`get` that returned a file. -/
structure Timed where
  cache : FileCache
  now : ℕ
  lastGet : Bytes → ℕ

/-- A call, with the time it is made. -/
def Timed.step (run : Timed) : Op → Option Timed
  | .get path calls =>
      (run.cache.get path calls).map fun (next, answer) =>
        match answer with
        | .found _ _ => ⟨next, run.now + 1, Function.update run.lastGet path run.now⟩
        | _ => ⟨next, run.now + 1, run.lastGet⟩
  | .setMaxSize maxSize =>
      (run.cache.setMaxSize maxSize).map fun next => ⟨next, run.now + 1, run.lastGet⟩

/-- Runs of one cache, with the times of use. -/
def timed : Transition.System Timed Op where
  init run := ∃ maxSize, run = ⟨new maxSize, 0, fun _ => 0⟩
  step := Timed.step

/-- The times do not influence the cache. -/
theorem Timed.step_cache {run next : Timed} {op : Op} (h : run.step op = some next) :
    system.step run.cache op = some next.cache := by
  cases op with
  | get path calls =>
      obtain ⟨⟨cache, answer⟩, hget, rfl⟩ := Option.map_eq_some_iff.mp h
      refine Option.map_eq_some_iff.mpr ⟨(cache, answer), hget, ?_⟩
      cases answer <;> rfl
  | setMaxSize maxSize =>
      obtain ⟨cache, hset, rfl⟩ := Option.map_eq_some_iff.mp h
      exact hset

theorem Timed.step_isSome {run : Timed} (h : run.cache.Linked) (op : Op) :
    ∃ next, run.step op = some next := by
  cases op with
  | get path calls =>
      obtain ⟨next, answer, heq, -⟩ := h.get path calls
      exact ⟨_, Option.map_eq_some_iff.mpr ⟨_, heq, rfl⟩⟩
  | setMaxSize maxSize =>
      obtain ⟨next, heq, -⟩ := h.setMaxSize maxSize
      exact ⟨_, Option.map_eq_some_iff.mpr ⟨_, heq, rfl⟩⟩

/-- The list is in the order of the times, which are all in the past. -/
structure Ordered (run : Timed) : Prop where
  linked : run.cache.Linked
  exact : run.cache.Exact
  decreasing : Decreasing run.lastGet run.cache.paths
  past : ∀ path ∈ run.cache.paths, run.lastGet path < run.now

theorem ordered_new (maxSize : ℕ) : Ordered ⟨new maxSize, 0, fun _ => 0⟩ :=
  ⟨linked_new maxSize, ⟨rfl, Nat.zero_le _⟩, List.Pairwise.nil, by simp [paths, new]⟩

section

variable {run : Timed} {next : FileCache} {path : Bytes}

/-- What holds of the times of a list holds of every part of it, a call later. -/
theorem Ordered.times_of_sublist (h : Ordered run) (hsub : next.paths.Sublist run.cache.paths) :
    Decreasing run.lastGet next.paths ∧ ∀ path ∈ next.paths, run.lastGet path < run.now + 1 :=
  ⟨h.decreasing.sublist hsub, fun path hpath =>
    (h.past path (hsub.mem hpath)).trans (Nat.lt_succ_self _)⟩

/-- A `get` that returns a file leaves a part of the list with its path in front. -/
theorem Ordered.times_of_used (h : Ordered run)
    (hsub : next.paths.Sublist (path :: run.cache.paths.erase path)) :
    Decreasing (Function.update run.lastGet path run.now) next.paths ∧
      ∀ other ∈ next.paths, Function.update run.lastGet path run.now other < run.now + 1 := by
  refine ⟨(h.decreasing.use h.linked.nodup h.past path).sublist hsub, fun other hother => ?_⟩
  by_cases heq : other = path
  · subst heq
    rw [Function.update_self]
    exact Nat.lt_succ_self _
  · rw [Function.update_of_ne heq]
    have hmem := (List.mem_cons.mp (hsub.mem hother)).resolve_left heq
    exact (h.past other (List.mem_of_mem_erase hmem)).trans (Nat.lt_succ_self _)

theorem Ordered.step (h : Ordered run) {op : Op} (haddr : run.cache.Addressable op) {after : Timed}
    (hstep : run.step op = some after) : Ordered after := by
  have hcache := Timed.step_cache hstep
  have hlinked : after.cache.Linked := by
    obtain ⟨next, heq, hnext⟩ := h.linked.step op
    rw [hcache, Option.some.injEq] at heq
    exact heq ▸ hnext
  have hexact := h.linked.exact_step h.exact haddr hcache
  cases op with
  | setMaxSize maxSize =>
      obtain ⟨next, hset, rfl⟩ := Option.map_eq_some_iff.mp hstep
      obtain ⟨next', heq, hevicted⟩ := h.linked.setMaxSize maxSize
      obtain rfl : next' = next := Option.some.inj (heq.symm.trans hset)
      obtain ⟨hdecreasing, hpast⟩ := h.times_of_sublist hevicted.paths_prefix.sublist
      exact ⟨hlinked, hexact, hdecreasing, hpast⟩
  | get path calls =>
      obtain ⟨⟨next, answer⟩, hget, rfl⟩ := Option.map_eq_some_iff.mp hstep
      obtain ⟨-, -, hpaths, -⟩ := h.linked.beforeLoad path
      cases h.linked.got_of_get hget with
      | hit hfile _ =>
          have hlist := h.linked.paths_refresh hfile
          obtain ⟨hdecreasing, hpast⟩ := h.times_of_used (by rw [hlist])
          exact ⟨hlinked, hexact, hdecreasing, hpast⟩
      | failed _ _ =>
          obtain ⟨hdecreasing, hpast⟩ := h.times_of_sublist (hpaths ▸ List.erase_sublist)
          exact ⟨hlinked, hexact, hdecreasing, hpast⟩
      | threw _ _ =>
          obtain ⟨hdecreasing, hpast⟩ := h.times_of_sublist (hpaths ▸ List.erase_sublist)
          exact ⟨hlinked, hexact, hdecreasing, hpast⟩
      | loaded _ _ hevicted =>
          have hprefix := hevicted.paths_prefix
          rw [paths_insert, hpaths] at hprefix
          obtain ⟨hdecreasing, hpast⟩ := h.times_of_used hprefix.sublist
          exact ⟨hlinked, hexact, hdecreasing, hpast⟩

end

/-- In every run the list is in strictly decreasing order of the last successful
`get`, and every call follows the policy. -/
theorem exact_lru {run : Timed}
    (h : timed.Reachable (fun run op => run.cache.Addressable op) run) :
    (∀ path, path ∈ run.cache.paths ↔ (run.cache.files path).isSome) ∧
      Decreasing run.lastGet run.cache.paths ∧
      ∀ op, run.cache.Addressable op →
        ∃ next, timed.step run op = some next ∧ LruStep run.cache op next.cache := by
  have hordered : Ordered run := by
    refine h.invariant ?_ ?_
    · rintro _ ⟨maxSize, rfl⟩
      exact ordered_new maxSize
    · intro run op next haddr hstep hordered
      exact hordered.step haddr hstep
  refine ⟨fun path => hordered.linked.mem_paths, hordered.decreasing, ?_⟩
  intro op haddr
  obtain ⟨next, hstep⟩ := Timed.step_isSome hordered.linked op
  exact ⟨next, hstep, hordered.linked.lruStep hordered.exact haddr (Timed.step_cache hstep)⟩

/-- Three pages in ten bytes: the list, and the times of the last `get`. -/
theorem exact_lru_three_pages :
    ∃ run, timed.exec ⟨new 10, 0, fun _ => 0⟩
        [.get (ascii "a") (callsOn (ascii "page") 1), .get (ascii "b") (callsOn (ascii "stored") 1),
          .get (ascii "a") (callsOn (ascii "page") 1),
          .get (ascii "c") (callsOn (ascii "third") 1)] = some run ∧
      run.cache.paths.map (fun path => (path, run.lastGet path)) =
        [(ascii "c", 3), (ascii "a", 2)] ∧
      Decreasing run.lastGet run.cache.paths := by
  have hrun : (timed.exec ⟨new 10, 0, fun _ => 0⟩
      [.get (ascii "a") (callsOn (ascii "page") 1), .get (ascii "b") (callsOn (ascii "stored") 1),
        .get (ascii "a") (callsOn (ascii "page") 1),
        .get (ascii "c") (callsOn (ascii "third") 1)]).map
      (fun run => run.cache.paths.map fun path => (path, run.lastGet path)) =
      some [(ascii "c", 3), (ascii "a", 2)] := by
    decide +kernel
  obtain ⟨run, hexec, hlist⟩ := Option.map_eq_some_iff.mp hrun
  have hinit : timed.init ⟨new 10, 0, fun _ => 0⟩ := ⟨10, rfl⟩
  have hreachable : timed.Reachable (fun run op => run.cache.Addressable op) run :=
    (Transition.System.Reachable.initial hinit).exec (by decide +kernel) hexec
  exact ⟨run, hexec, hlist, (exact_lru hreachable).2.1⟩

end Sok.FileCache
