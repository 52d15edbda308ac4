import Mathlib.Algebra.BigOperators.Group.Finset.Basic
import Sok.Cache.FileCache

/-!
# The representation of the file cache

The map, the list with its iterators and the byte counter stay in step
(`Linked`), whatever the file system answers, and so both eviction loops end
with a counter within `max_size_`.  The counter is the sum of the cached sizes
modulo `2 ^ 64`, and exactly the sum as long as all the bytes held at one time
are `Addressable`.

## Strategy

`Threaded` speaks of the list and the map alone, and only of three changes: an entry goes
with its node, a new entry comes with a new node, a node moves to the front.  `Linked`
adds the counter, as the sum of the sizes modulo `2 ^ 64`, and each operation of the
source is one of these changes with what it does to the sum (`Linked.forget`,
`Linked.refresh`, `Linked.insert`, `Linked.evict`).

The eviction loop is by induction on the list.  It ends since a round takes a node away,
and since an empty list has the sum 0, which is never above the limit
(`Linked.evictWhile`).  What it leaves is a prefix of the list, and the longest one that
fits if the counter did not wrap (`Evicted`).  A `get` ends in one of four ways (`Got`),
and what holds of every call is read off these.
-/

namespace Sok.FileCache

open Recency (total)

/-! ## List and map -/

/-- The list `nodes` and the map `files` hold the same paths, and every entry
points to its own node. -/
structure Threaded (nodes : List LruNode) (files : Bytes → Option CachedFile)
    (nextNode : ℕ) : Prop where
  nodup_paths : (nodes.map LruNode.path).Nodup
  nodup_ids : (nodes.map LruNode.id).Nodup
  mem_paths : ∀ path, path ∈ nodes.map LruNode.path ↔ (files path).isSome
  designates : ∀ path file, files path = some file → ⟨file.lruIt, path⟩ ∈ nodes
  fresh : ∀ node ∈ nodes, node.id < nextNode

section Threaded

variable {nodes : List LruNode} {files : Bytes → Option CachedFile} {nextNode : ℕ}
  {path : Bytes} {file : CachedFile}

theorem threaded_nil : Threaded [] (fun _ => none) 0 :=
  ⟨List.nodup_nil, List.nodup_nil, by simp, by simp, by simp⟩

/-- Erasing through the iterator of an entry erases the path of the entry. -/
theorem Threaded.map_path_eraseNode (h : Threaded nodes files nextNode)
    (hfile : files path = some file) :
    (eraseNode nodes file.lruIt).map LruNode.path = (nodes.map LruNode.path).erase path :=
  Recency.map_eraseP_eq_erase h.nodup_ids h.nodup_paths (h.designates path file hfile)

theorem Threaded.erase (h : Threaded nodes files nextNode) (hfile : files path = some file) :
    Threaded (eraseNode nodes file.lruIt) (Function.update files path none) nextNode := by
  have hpaths := h.map_path_eraseNode hfile
  have hsub : (eraseNode nodes file.lruIt).Sublist nodes := List.eraseP_sublist
  refine ⟨?_, (hsub.map _).nodup h.nodup_ids, ?_, ?_,
    fun node hnode => h.fresh node (hsub.mem hnode)⟩
  · rw [hpaths]
    exact h.nodup_paths.erase path
  · intro other
    rw [hpaths, h.nodup_paths.mem_erase_iff, h.mem_paths]
    by_cases heq : other = path
    · simp [heq]
    · simp [heq]
  · intro other entry hentry
    by_cases heq : other = path
    · simp [heq] at hentry
    rw [Function.update_of_ne heq] at hentry
    have hmem := h.designates other entry hentry
    apply (List.mem_eraseP_of_neg ?_).mpr hmem
    -- two nodes with one identity would be one node, and so have one path
    simp only [decide_eq_true_eq]
    intro hid
    have hsame := List.inj_on_of_nodup_map h.nodup_ids hmem (h.designates path file hfile) hid
    exact heq (LruNode.mk.inj hsame).2

theorem Threaded.push (h : Threaded nodes files nextNode) (hnone : files path = none)
    (loaded : LoadedFile) :
    Threaded (⟨nextNode, path⟩ :: nodes)
      (Function.update files path (some { loaded with lruIt := nextNode })) (nextNode + 1) := by
  refine ⟨?_, ?_, ?_, ?_, ?_⟩
  · refine List.nodup_cons.mpr ⟨?_, h.nodup_paths⟩
    rw [h.mem_paths, hnone]
    simp
  · refine List.nodup_cons.mpr ⟨fun hmem => ?_, h.nodup_ids⟩
    obtain ⟨node, hnode, hid⟩ := List.mem_map.mp hmem
    exact absurd (h.fresh node hnode) (by rw [hid]; exact lt_irrefl _)
  · intro other
    rw [List.map_cons, List.mem_cons, h.mem_paths]
    by_cases heq : other = path
    · simp [heq]
    · simp [heq]
  · intro other entry hentry
    by_cases heq : other = path
    · subst heq
      rw [Function.update_self, Option.some.injEq] at hentry
      subst hentry
      exact List.mem_cons_self
    · rw [Function.update_of_ne heq] at hentry
      exact List.mem_cons_of_mem _ (h.designates other entry hentry)
  · intro node hnode
    rcases List.mem_cons.mp hnode with rfl | hnode
    · exact Nat.lt_succ_self _
    · exact (h.fresh node hnode).trans (Nat.lt_succ_self _)

/-- The last node, erased through the iterator of its entry. -/
theorem Threaded.eraseNode_concat {front : List LruNode} {node : LruNode}
    (h : Threaded (front ++ [node]) files nextNode) (hfile : files node.path = some file) :
    eraseNode (front ++ [node]) file.lruIt = front := by
  have hmem := h.designates node.path file hfile
  have hsame : (⟨file.lruIt, node.path⟩ : LruNode) = node :=
    List.inj_on_of_nodup_map h.nodup_paths hmem (by simp) rfl
  have hfront : ∀ other ∈ front, ¬ other.id = file.lruIt := by
    intro other hother heq
    have hids := h.nodup_ids
    rw [List.map_append, List.nodup_append'] at hids
    refine hids.2.2 (List.mem_map_of_mem hother) ?_
    rw [List.map_singleton, List.mem_singleton, heq]
    exact congrArg LruNode.id hsame
  have hlast : node.id = file.lruIt := (congrArg LruNode.id hsame).symm
  unfold eraseNode
  rw [List.eraseP_append_right _ (by simpa using hfront),
    List.eraseP_cons_of_pos (by simpa using hlast), List.append_nil]

end Threaded

/-! ## The invariant -/

/-- What holds of a file that `load_file` has loaded. -/
structure LoadedFile.Sound (file : LoadedFile) (path : Bytes) : Prop where
  positive : 0 < file.fileSize
  filled : file.content.length = file.fileSize
  typed : file.mimeType = getMimeType path

theorem sound_of_loadFile {path : Bytes} {calls : FileCalls} {file : LoadedFile}
    (h : loadFile path calls = .loaded file) : file.Sound path := by
  obtain ⟨-, -, -, hpos, hcontent, hmime, -⟩ := loadFile_eq_loaded h
  refine ⟨hpos, ?_, hmime⟩
  rw [hcontent, length_readInto]

/-- The sizes of all cached files, added up. -/
def held (cache : FileCache) : ℕ :=
  total cache.fileSizeAt cache.paths

/-- Map, list and counter are in step. -/
structure Linked (cache : FileCache) : Prop where
  threaded : Threaded cache.lruList cache.files cache.nextNode
  sound : ∀ path file, cache.files path = some file → file.Sound path
  counts : cache.currentSize.Counts cache.held

variable {cache : FileCache} {path : Bytes}

theorem linked_new (maxSize : ℕ) : (new maxSize).Linked :=
  ⟨threaded_nil, fun _ _ h => absurd h (by simp [new]), SizeT.counts_zero⟩

theorem Linked.nodup (h : cache.Linked) : cache.paths.Nodup :=
  h.threaded.nodup_paths

theorem Linked.mem_paths (h : cache.Linked) : path ∈ cache.paths ↔ (cache.files path).isSome :=
  h.threaded.mem_paths path

theorem fileSizeAt_of_eq_some {file : CachedFile} (h : cache.files path = some file) :
    cache.fileSizeAt path = file.fileSize := by
  simp [fileSizeAt, h]

theorem Linked.held_erase {file : CachedFile} (h : cache.Linked)
    (hfile : cache.files path = some file) :
    file.fileSize + total cache.fileSizeAt (cache.paths.erase path) = cache.held := by
  rw [← fileSizeAt_of_eq_some hfile]
  exact Recency.total_erase (h.mem_paths.mpr (by rw [hfile]; rfl))

/-- The sizes of the other paths do not depend on the entry of one path. -/
theorem total_update {other : FileCache} {entry : Option CachedFile} {keys : List Bytes}
    (hfiles : other.files = Function.update cache.files path entry) (hnot : path ∉ keys) :
    total other.fileSizeAt keys = total cache.fileSizeAt keys := by
  refine Recency.total_congr fun key hkey => ?_
  have hne : key ≠ path := fun heq => hnot (heq ▸ hkey)
  unfold fileSizeAt
  rw [hfiles, Function.update_of_ne hne]

/-! ## What the operations keep -/

section Operations

variable {file : CachedFile}

theorem Linked.paths_forget (h : cache.Linked) (hfile : cache.files path = some file) :
    (cache.forget path file).paths = cache.paths.erase path :=
  h.threaded.map_path_eraseNode hfile

theorem Linked.held_forget (h : cache.Linked) (hfile : cache.files path = some file) :
    (cache.forget path file).held = total cache.fileSizeAt (cache.paths.erase path) := by
  unfold held
  rw [h.paths_forget hfile]
  exact total_update rfl h.nodup.not_mem_erase

theorem Linked.forget (h : cache.Linked) (hfile : cache.files path = some file) :
    (cache.forget path file).Linked := by
  refine ⟨h.threaded.erase hfile, ?_, ?_⟩
  · intro other entry hentry
    by_cases heq : other = path
    · subst heq
      exact absurd hentry (by simp)
    · rw [files_forget, Function.update_of_ne heq] at hentry
      exact h.sound other entry hentry
  · rw [h.held_forget hfile]
    apply SizeT.Counts.sub
    rw [h.held_erase hfile]
    exact h.counts

theorem Linked.paths_refresh (h : cache.Linked) (hfile : cache.files path = some file) :
    (cache.refresh path file).paths = path :: cache.paths.erase path := by
  unfold FileCache.paths refresh
  rw [List.map_cons, h.threaded.map_path_eraseNode hfile]

/-- A hit changes nothing in the cached files but the iterator. -/
theorem loaded_refresh (hfile : cache.files path = some file) (other : Bytes) :
    ((cache.refresh path file).files other).map CachedFile.toLoadedFile =
      (cache.files other).map CachedFile.toLoadedFile := by
  rw [files_refresh]
  by_cases heq : other = path
  · subst heq
    rw [Function.update_self, hfile]
    rfl
  · rw [Function.update_of_ne heq]

theorem fileSizeAt_refresh (hfile : cache.files path = some file) :
    (cache.refresh path file).fileSizeAt = cache.fileSizeAt := by
  funext other
  have hsame := loaded_refresh hfile other
  unfold fileSizeAt
  cases hnew : (cache.refresh path file).files other with
  | none =>
      rw [hnew] at hsame
      rw [Option.map_eq_none_iff.mp hsame.symm]
  | some entry =>
      rw [hnew] at hsame
      obtain ⟨old, hold, heq⟩ := Option.map_eq_some_iff.mp hsame.symm
      rw [hold, Option.elim_some, Option.elim_some, heq]

theorem Linked.refresh (h : cache.Linked) (hfile : cache.files path = some file) :
    (cache.refresh path file).Linked := by
  refine ⟨?_, ?_, ?_⟩
  · have hnone : Function.update cache.files path none path = none := Function.update_self ..
    have hpushed := (h.threaded.erase hfile).push hnone file.toLoadedFile
    rwa [Function.update_idem] at hpushed
  · intro other entry hentry
    have hsame := loaded_refresh hfile other
    rw [hentry] at hsame
    obtain ⟨old, hold, heq⟩ := Option.map_eq_some_iff.mp hsame.symm
    exact heq ▸ h.sound other old hold
  · have hheld : (cache.refresh path file).held = cache.held := by
      unfold held
      rw [h.paths_refresh hfile, fileSizeAt_refresh hfile, Recency.total_cons]
      exact Recency.total_erase (h.mem_paths.mpr (by rw [hfile]; rfl))
    rw [hheld]
    exact h.counts

theorem fileSizeAt_insert_self (cache : FileCache) (path : Bytes) (loaded : LoadedFile) :
    (cache.insert path loaded).fileSizeAt path = loaded.fileSize := by
  simp [fileSizeAt]

theorem Linked.held_insert (h : cache.Linked) (hnone : cache.files path = none)
    (loaded : LoadedFile) :
    (cache.insert path loaded).held = cache.held + loaded.fileSize := by
  have hnot : path ∉ cache.paths := by
    rw [h.mem_paths, hnone]
    simp
  unfold held
  rw [paths_insert, Recency.total_cons, fileSizeAt_insert_self, Nat.add_comm]
  congr 1
  exact total_update rfl hnot

theorem Linked.insert (h : cache.Linked) (hnone : cache.files path = none) {loaded : LoadedFile}
    (hloaded : loaded.Sound path) : (cache.insert path loaded).Linked := by
  refine ⟨h.threaded.push hnone loaded, ?_, ?_⟩
  · intro other entry hentry
    rw [files_insert] at hentry
    by_cases heq : other = path
    · subst heq
      rw [Function.update_self, Option.some.injEq] at hentry
      subst hentry
      exact hloaded
    · rw [Function.update_of_ne heq] at hentry
      exact h.sound other entry hentry
  · rw [h.held_insert hnone]
    exact h.counts.add loaded.fileSize

/-- In a cache whose list is not empty, `evict` removes the entry of the last
path as `get` removes a stale one. -/
theorem Linked.evict_eq {front : List LruNode} {node : LruNode} (h : cache.Linked)
    (hlist : cache.lruList = front ++ [node]) :
    ∃ file, cache.files node.path = some file ∧
      cache.evict = { cache.forget node.path file with misses := cache.misses } := by
  have hsome : (cache.files node.path).isSome := by
    rw [← h.mem_paths]
    unfold FileCache.paths
    rw [hlist]
    simp
  obtain ⟨file, hfile⟩ := Option.isSome_iff_exists.mp hsome
  have hthreaded := h.threaded
  rw [hlist] at hthreaded
  refine ⟨file, hfile, ?_⟩
  unfold FileCache.evict FileCache.forget
  rw [hlist, List.getLast?_concat]
  dsimp only
  rw [hfile, List.dropLast_concat, hthreaded.eraseNode_concat hfile]

theorem Linked.evict (h : cache.Linked) : cache.evict.Linked := by
  rcases List.eq_nil_or_concat cache.lruList with hnil | ⟨front, node, hlist⟩
  · unfold FileCache.evict
    rw [hnil]
    exact h
  · rw [List.concat_eq_append] at hlist
    obtain ⟨file, hfile, heq⟩ := h.evict_eq hlist
    rw [heq]
    obtain ⟨hthreaded, hsound, hcounts⟩ := h.forget hfile
    exact ⟨hthreaded, hsound, hcounts⟩

theorem Linked.beforeLoad (h : cache.Linked) (path : Bytes) :
    (cache.beforeLoad path).Linked ∧ (cache.beforeLoad path).files path = none ∧
      (cache.beforeLoad path).paths = cache.paths.erase path ∧
      (cache.beforeLoad path).held = total cache.fileSizeAt (cache.paths.erase path) := by
  unfold FileCache.beforeLoad
  cases hfile : cache.files path with
  | none =>
      have herase : cache.paths.erase path = cache.paths := List.erase_of_not_mem fun hmem => by
        simp [h.mem_paths, hfile] at hmem
      obtain ⟨hthreaded, hsound, hcounts⟩ := h
      rw [herase]
      exact ⟨⟨hthreaded, hsound, hcounts⟩, hfile, rfl, rfl⟩
  | some file =>
      exact ⟨h.forget hfile, Function.update_self .., h.paths_forget hfile, h.held_forget hfile⟩

theorem files_beforeLoad_of_ne {other : Bytes} (hne : other ≠ path) :
    (cache.beforeLoad path).files other = cache.files other := by
  unfold FileCache.beforeLoad
  cases cache.files path with
  | none => rfl
  | some file => exact Function.update_of_ne hne ..

theorem maxSize_beforeLoad : (cache.beforeLoad path).maxSize = cache.maxSize := by
  unfold FileCache.beforeLoad
  cases cache.files path <;> rfl

end Operations

/-! ## The eviction loop -/

/-- What an eviction loop that ends has done. -/
structure Evicted (before after : FileCache) : Prop where
  linked : after.Linked
  within : after.currentSize.value ≤ after.maxSize
  maxSize : after.maxSize = before.maxSize
  paths_prefix : after.paths <+: before.paths
  kept : ∀ path ∈ after.paths, after.files path = before.files path
  of_not_wrapped : before.currentSize.wrapped = false → after.currentSize.wrapped = false ∧
    after.paths = Recency.fit before.fileSizeAt before.maxSize before.paths

theorem Linked.evicted_self (h : cache.Linked) (hle : cache.currentSize.value ≤ cache.maxSize) :
    Evicted cache cache := by
  refine ⟨h, hle, rfl, List.prefix_rfl, fun _ _ => rfl, fun hwrap => ⟨hwrap, ?_⟩⟩
  refine (Recency.fit_of_total_le ?_).symm
  rwa [h.counts.exact_of_not_wrapped hwrap] at hle

/-- One more round in front. -/
theorem Evicted.of_evict {after : FileCache} {front : List LruNode} {node : LruNode}
    (h : cache.Linked) (hlist : cache.lruList = front ++ [node])
    (hover : cache.maxSize < cache.currentSize.value) (hafter : Evicted cache.evict after) :
    Evicted cache after := by
  obtain ⟨file, hfile, heq⟩ := h.evict_eq hlist
  have hpaths : cache.paths = cache.evict.paths ++ [node.path] := by
    have hforget : cache.evict.paths = cache.paths.erase node.path := by
      rw [heq]
      exact h.paths_forget hfile
    have hwhole : cache.paths = front.map LruNode.path ++ [node.path] := by
      unfold FileCache.paths
      rw [hlist, List.map_append, List.map_singleton]
    have hnot : node.path ∉ front.map LruNode.path := by
      have := h.nodup
      rw [hwhole, List.nodup_append'] at this
      exact fun hmem => this.2.2 hmem (List.mem_singleton_self _)
    rw [hforget, hwhole, List.erase_append_right _ hnot, List.erase_cons_head, List.append_nil]
  have hfiles : ∀ path ∈ cache.evict.paths, cache.evict.files path = cache.files path := by
    intro path hpath
    have hne : path ≠ node.path := by
      rintro rfl
      have := h.nodup
      rw [hpaths, List.nodup_append'] at this
      exact this.2.2 hpath (List.mem_singleton_self _)
    rw [heq]
    exact Function.update_of_ne hne ..
  have hmax : cache.evict.maxSize = cache.maxSize := by
    rw [heq]
    rfl
  refine ⟨hafter.linked, hafter.within, hafter.maxSize.trans hmax,
    hafter.paths_prefix.trans ⟨_, hpaths.symm⟩, ?_, ?_⟩
  · intro path hpath
    rw [hafter.kept path hpath, hfiles path (hafter.paths_prefix.subset hpath)]
  · intro hwrap
    have hexact := h.counts.exact_of_not_wrapped hwrap
    have hcounts := h.counts
    rw [← h.held_erase hfile] at hcounts
    have hnext : cache.evict.currentSize.wrapped = false := by
      rw [heq]
      exact SizeT.wrapped_sub hcounts hwrap
    obtain ⟨hdone, hfit⟩ := hafter.of_not_wrapped hnext
    refine ⟨hdone, ?_⟩
    have hover' : cache.maxSize < total cache.fileSizeAt (cache.evict.paths ++ [node.path]) := by
      rw [← hpaths]
      rwa [hexact] at hover
    rw [hfit, hmax, hpaths, Recency.fit_concat_of_lt hover']
    refine Recency.fit_congr fun path hpath => ?_
    unfold fileSizeAt
    rw [hfiles path hpath]

/-- The eviction loop ends: with an empty list the counter is 0. -/
theorem Linked.evictWhile (h : cache.Linked) :
    ∃ after, cache.evictWhile = some after ∧ Evicted cache after := by
  unfold FileCache.evictWhile
  induction hlength : cache.lruList.length generalizing cache with
  | zero =>
      have hheld : cache.held = 0 := by
        unfold held FileCache.paths
        rw [List.length_eq_zero_iff.mp hlength]
        rfl
      have hzero : cache.currentSize.value = 0 := by
        rw [h.counts.modulo, hheld]
        rfl
      have hle : cache.currentSize.value ≤ cache.maxSize := hzero ▸ Nat.zero_le _
      exact ⟨cache, if_neg hle.not_gt, h.evicted_self hle⟩
  | succ n ih =>
      unfold evictRounds
      split
      case isTrue hover =>
        rcases List.eq_nil_or_concat cache.lruList with hnil | ⟨front, node, hlist⟩
        · rw [hnil] at hlength
          exact absurd hlength (by simp)
        rw [List.concat_eq_append] at hlist
        obtain ⟨file, hfile, heq⟩ := h.evict_eq hlist
        have hshorter : cache.evict.lruList.length = n := by
          have hthreaded := h.threaded
          rw [hlist] at hlength hthreaded
          rw [heq]
          unfold FileCache.forget
          rw [hlist, hthreaded.eraseNode_concat hfile]
          simpa using hlength
        obtain ⟨after, hrounds, hafter⟩ := ih h.evict hshorter
        exact ⟨after, hrounds, hafter.of_evict h hlist hover⟩
      case isFalse hle =>
        exact ⟨cache, rfl, h.evicted_self (not_lt.mp hle)⟩

theorem evictRounds_of_le (fuel : ℕ) (hle : ¬ cache.maxSize < cache.currentSize.value) :
    evictRounds fuel cache = some cache := by
  cases fuel <;> rw [evictRounds, if_neg hle]

theorem evictWhile_of_evictRounds {after : FileCache} {fuel : ℕ}
    (h : evictRounds fuel cache = some after) : cache.evictWhile = some after := by
  induction fuel generalizing cache with
  | zero =>
      unfold evictRounds at h
      split at h
      case isTrue => exact absurd h (by simp)
      case isFalse hle =>
        rw [FileCache.evictWhile, evictRounds_of_le _ hle]
        exact h
  | succ fuel ih =>
      unfold evictRounds at h
      split at h
      case isTrue hover =>
        have hrest := ih h
        rcases List.eq_nil_or_concat cache.lruList with hnil | ⟨front, node, hlist⟩
        · unfold FileCache.evict at hrest
          rwa [hnil] at hrest
        · have hlength : cache.lruList.length = cache.evict.lruList.length + 1 := by
            unfold FileCache.evict
            rw [hlist, List.concat_eq_append, List.getLast?_concat]
            dsimp only
            cases cache.files node.path <;> simp
          unfold FileCache.evictWhile
          rw [hlength]
          unfold evictRounds
          rw [if_pos hover]
          exact hrest
      case isFalse hle =>
        rw [FileCache.evictWhile, evictRounds_of_le _ hle]
        exact h

/-! ## One call -/

/-- The cache has no fresh entry for the path: `get` has to load the file. -/
def Misses (cache : FileCache) (path : Bytes) (calls : FileCalls) : Prop :=
  ∀ file, cache.files path = some file → isFileModified calls file.lastModified = true

/-- What one `get` can do. -/
inductive Got (cache : FileCache) (path : Bytes) (calls : FileCalls) :
    FileCache → CacheAnswer → Prop
  | hit {file : CachedFile} : cache.files path = some file →
      isFileModified calls file.lastModified = false →
      Got cache path calls (cache.refresh path file) (.found file.content file.mimeType)
  | failed : cache.Misses path calls → loadFile path calls = .failed →
      Got cache path calls (cache.beforeLoad path) .missing
  | threw : cache.Misses path calls → loadFile path calls = .throws →
      Got cache path calls (cache.beforeLoad path) .throws
  | loaded {file : LoadedFile} {next : FileCache} : cache.Misses path calls →
      loadFile path calls = .loaded file →
      Evicted ((cache.beforeLoad path).insert path file) next →
      Got cache path calls next (.found file.content file.mimeType)

theorem Linked.insert_beforeLoad (h : cache.Linked) {calls : FileCalls} {file : LoadedFile}
    (hload : loadFile path calls = .loaded file) :
    ((cache.beforeLoad path).insert path file).Linked := by
  obtain ⟨hlinked, hnone, -⟩ := h.beforeLoad path
  exact hlinked.insert hnone (sound_of_loadFile hload)

theorem Linked.loadInto_beforeLoad (h : cache.Linked) {calls : FileCalls}
    (hmisses : cache.Misses path calls) :
    ∃ next answer, (cache.beforeLoad path).loadInto path calls = some (next, answer) ∧
      Got cache path calls next answer := by
  unfold loadInto
  cases hload : loadFile path calls with
  | failed => exact ⟨_, _, rfl, .failed hmisses hload⟩
  | throws => exact ⟨_, _, rfl, .threw hmisses hload⟩
  | loaded file =>
      obtain ⟨next, heq, hevicted⟩ := (h.insert_beforeLoad hload).evictWhile
      dsimp only
      rw [heq]
      exact ⟨_, _, rfl, .loaded hmisses hload hevicted⟩

theorem Linked.get (h : cache.Linked) (path : Bytes) (calls : FileCalls) :
    ∃ next answer, cache.get path calls = some (next, answer) ∧
      Got cache path calls next answer := by
  unfold FileCache.get
  cases hfile : cache.files path with
  | none =>
      refine h.loadInto_beforeLoad fun file hsome => ?_
      rw [hfile] at hsome
      exact absurd hsome (by simp)
  | some file =>
      by_cases hmodified : isFileModified calls file.lastModified = true
      · dsimp only
        rw [if_pos hmodified]
        refine h.loadInto_beforeLoad fun other hsome => ?_
        rw [hfile, Option.some.injEq] at hsome
        exact hsome ▸ hmodified
      · dsimp only
        rw [if_neg hmodified]
        exact ⟨_, _, rfl, .hit hfile (by simpa using hmodified)⟩

theorem Linked.got_of_get (h : cache.Linked) {calls : FileCalls} {next : FileCache}
    {answer : CacheAnswer} (hget : cache.get path calls = some (next, answer)) :
    Got cache path calls next answer := by
  obtain ⟨next', answer', heq, hgot⟩ := h.get path calls
  rw [hget, Option.some.injEq, Prod.mk.injEq] at heq
  obtain ⟨rfl, rfl⟩ := heq
  exact hgot

theorem Linked.of_got (h : cache.Linked) {calls : FileCalls} {next : FileCache}
    {answer : CacheAnswer} (hgot : Got cache path calls next answer) : next.Linked := by
  cases hgot with
  | hit hfile _ => exact h.refresh hfile
  | failed _ _ => exact (h.beforeLoad path).1
  | threw _ _ => exact (h.beforeLoad path).1
  | loaded _ _ hevicted => exact hevicted.linked

/-- A file that `get` returns is not empty, and typed by its path. -/
theorem Linked.found_of_got (h : cache.Linked) {calls : FileCalls} {next : FileCache}
    {content mime : Bytes} (hgot : Got cache path calls next (.found content mime)) :
    content ≠ [] ∧ mime = getMimeType path := by
  have hsound : ∀ file : LoadedFile, file.Sound path →
      file.content ≠ [] ∧ file.mimeType = getMimeType path := by
    rintro file ⟨hpos, hfilled, htyped⟩
    refine ⟨?_, htyped⟩
    rw [← List.length_pos_iff, hfilled]
    exact hpos
  cases hgot with
  | hit hfile _ => exact hsound _ (h.sound path _ hfile)
  | loaded _ hload _ => exact hsound _ (sound_of_loadFile hload)

theorem Linked.setMaxSize (h : cache.Linked) (maxSize : ℕ) :
    ∃ next, cache.setMaxSize maxSize = some next ∧
      Evicted { cache with maxSize := maxSize } next := by
  obtain ⟨hthreaded, hsound, hcounts⟩ := h
  exact Linked.evictWhile ⟨hthreaded, hsound, hcounts⟩

theorem Linked.step (h : cache.Linked) (op : Op) :
    ∃ next, system.step cache op = some next ∧ next.Linked := by
  cases op with
  | get path calls =>
      obtain ⟨next, answer, heq, hgot⟩ := h.get path calls
      refine ⟨next, ?_, h.of_got hgot⟩
      change (cache.get path calls).map Prod.fst = some next
      rw [heq, Option.map_some]
  | setMaxSize maxSize =>
      obtain ⟨next, heq, hevicted⟩ := h.setMaxSize maxSize
      exact ⟨next, heq, hevicted.linked⟩

/-- In every state of every run map, list and counter are in step. -/
theorem linked_of_reachable {guard : FileCache → Op → Prop} (h : system.Reachable guard cache) :
    cache.Linked := by
  refine h.invariant ?_ ?_
  · rintro _ ⟨maxSize, rfl⟩
    exact linked_new maxSize
  · intro cache op next _ hstep hlinked
    obtain ⟨next', heq, hnext⟩ := hlinked.step op
    rw [hstep, Option.some.injEq] at heq
    exact heq ▸ hnext

/-! ## The counter -/

/-- The counter has never wrapped and is within the limit. -/
structure Exact (cache : FileCache) : Prop where
  not_wrapped : cache.currentSize.wrapped = false
  within : cache.currentSize.value ≤ cache.maxSize

/-- What an allocator guarantees: the buffer of a new file can only be had if
it has its own addresses beside the contents held at that time. -/
def Addressable (cache : FileCache) : Op → Prop
  | .get path calls => ∀ size ∈ calls.size, calls.allocates = true →
      (cache.beforeLoad path).held + size < SizeT.card
  | .setMaxSize _ => True

instance (cache : FileCache) : ∀ op, Decidable (cache.Addressable op)
  | .get path calls =>
      inferInstanceAs (Decidable (∀ size ∈ calls.size, calls.allocates = true →
        (cache.beforeLoad path).held + size < SizeT.card))
  | .setMaxSize _ => inferInstanceAs (Decidable True)

theorem Linked.exact_beforeLoad (h : cache.Linked) (hexact : cache.Exact) (path : Bytes) :
    (cache.beforeLoad path).Exact := by
  obtain ⟨hwrap, hwithin⟩ := hexact
  unfold FileCache.beforeLoad
  cases hfile : cache.files path with
  | none => exact ⟨hwrap, hwithin⟩
  | some file =>
      have hcounts := h.counts
      rw [← h.held_erase hfile] at hcounts
      have hnext : (cache.forget path file).currentSize.wrapped = false :=
        SizeT.wrapped_sub hcounts hwrap
      refine ⟨hnext, ?_⟩
      rw [(h.forget hfile).counts.exact_of_not_wrapped hnext, h.held_forget hfile]
      rw [h.counts.exact_of_not_wrapped hwrap, ← h.held_erase hfile] at hwithin
      exact (Nat.le_add_left _ _).trans hwithin

theorem Linked.not_wrapped_insert (h : cache.Linked) (hexact : cache.Exact) {calls : FileCalls}
    {file : LoadedFile} (hload : loadFile path calls = .loaded file)
    (haddr : cache.Addressable (.get path calls)) :
    ((cache.beforeLoad path).insert path file).currentSize.wrapped = false := by
  obtain ⟨-, hallocates, hsize, -⟩ := loadFile_eq_loaded hload
  exact SizeT.wrapped_add_of_lt (h.beforeLoad path).1.counts
    (h.exact_beforeLoad hexact path).not_wrapped (haddr _ hsize hallocates)

/-- Every call keeps the counter exact. -/
theorem Linked.exact_step (h : cache.Linked) (hexact : cache.Exact) {op : Op}
    (haddr : cache.Addressable op) {next : FileCache} (hstep : system.step cache op = some next) :
    next.Exact := by
  cases op with
  | get path calls =>
      obtain ⟨⟨_, answer⟩, hget, rfl⟩ := Option.map_eq_some_iff.mp hstep
      cases h.got_of_get hget with
      | hit _ _ => exact ⟨hexact.not_wrapped, hexact.within⟩
      | failed _ _ => exact h.exact_beforeLoad hexact path
      | threw _ _ => exact h.exact_beforeLoad hexact path
      | loaded _ hload hevicted =>
          have hwrap := h.not_wrapped_insert hexact hload haddr
          exact ⟨(hevicted.of_not_wrapped hwrap).1, hevicted.within⟩
  | setMaxSize maxSize =>
      obtain ⟨next', heq, hevicted⟩ := h.setMaxSize maxSize
      obtain rfl : next' = next := Option.some.inj (heq.symm.trans hstep)
      exact ⟨(hevicted.of_not_wrapped hexact.not_wrapped).1, hevicted.within⟩

/-- Along a run with addressable contents the counter is exact. -/
theorem exact_of_reachable {guard : FileCache → Op → Prop}
    (hguard : ∀ cache op, cache.Linked → cache.Exact → guard cache op → cache.Addressable op)
    (h : system.Reachable guard cache) : cache.Exact := by
  have hboth : cache.Linked ∧ cache.Exact := by
    refine @Transition.System.Reachable.invariant _ _ system guard
      (fun cache => cache.Linked ∧ cache.Exact) ?_ ?_ _ h
    · rintro _ ⟨maxSize, rfl⟩
      exact ⟨linked_new maxSize, rfl, Nat.zero_le _⟩
    · rintro cache op next hop hstep ⟨hlinked, hexact⟩
      obtain ⟨next', heq, hnext⟩ := hlinked.step op
      rw [hstep, Option.some.injEq] at heq
      subst heq
      exact ⟨hnext, hlinked.exact_step hexact (hguard cache op hlinked hexact hop) hstep⟩
  exact hboth.2

/-! ## The representation invariant -/

/-- The limit and the size of a file that is loaded, taken together, are fewer
bytes than a `size_t` can count. -/
def Fits (cache : FileCache) : Op → Prop
  | .get _ calls => ∀ size ∈ calls.size, cache.maxSize + size < SizeT.card
  | .setMaxSize _ => True

instance (cache : FileCache) : ∀ op, Decidable (cache.Fits op)
  | .get _ calls =>
      inferInstanceAs (Decidable (∀ size ∈ calls.size, cache.maxSize + size < SizeT.card))
  | .setMaxSize _ => inferInstanceAs (Decidable True)

theorem Linked.addressable_of_fits (h : cache.Linked) (hexact : cache.Exact) {op : Op}
    (hfits : cache.Fits op) : cache.Addressable op := by
  cases op with
  | setMaxSize _ => trivial
  | get path calls =>
      intro size hsize _
      have hbase := h.exact_beforeLoad hexact path
      have hwithin := hbase.within
      rw [(h.beforeLoad path).1.counts.exact_of_not_wrapped hbase.not_wrapped,
        maxSize_beforeLoad] at hwithin
      exact (Nat.add_le_add_right hwithin size).trans_lt (hfits size hsize)

/-- The list is the list of the cached paths, and every entry's iterator
designates the node that holds its own path. -/
structure Represented (cache : FileCache) : Prop where
  nodup : cache.paths.Nodup
  keys : ∀ path, path ∈ cache.paths ↔ (cache.files path).isSome
  designates : ∀ path file, cache.files path = some file →
    ∀ node ∈ cache.lruList, node.id = file.lruIt ↔ node.path = path
  positive : ∀ path file, cache.files path = some file → 0 < file.fileSize

/-- The counter is the sum of the cached sizes, never wrapped on the way, and is
within the limit. -/
structure Accounted (cache : FileCache) : Prop where
  sum : cache.currentSize.value = ∑ path ∈ cache.paths.toFinset, cache.fileSizeAt path
  not_wrapped : cache.currentSize.wrapped = false
  within : cache.currentSize.value ≤ cache.maxSize

theorem Linked.represented (h : cache.Linked) : cache.Represented := by
  refine ⟨h.nodup, fun _ => h.mem_paths, ?_,
    fun path file hfile => (h.sound path file hfile).positive⟩
  intro path file hfile node hnode
  have hown := h.threaded.designates path file hfile
  constructor
  · intro hid
    exact congrArg LruNode.path (List.inj_on_of_nodup_map h.threaded.nodup_ids hnode hown hid)
  · intro hpath
    exact congrArg LruNode.id (List.inj_on_of_nodup_map h.threaded.nodup_paths hnode hown hpath)

/-- In every state of every run the list, the map and the iterators are in step
and every further call returns; and if every loaded file fits, the counter is
exactly the sum of the cached sizes and within the limit. -/
theorem representation_invariant {guard : FileCache → Op → Prop}
    (h : system.Reachable guard cache) :
    cache.Represented ∧ (∀ op, ∃ next, system.step cache op = some next) ∧
      ((∀ cache op, guard cache op → cache.Fits op) → cache.Accounted) := by
  have hlinked := linked_of_reachable h
  refine ⟨hlinked.represented, fun op => ?_, fun hguard => ?_⟩
  · obtain ⟨next, hnext, -⟩ := hlinked.step op
    exact ⟨next, hnext⟩
  · have hexact := exact_of_reachable
      (fun _ _ hlinked hexact hop => hlinked.addressable_of_fits hexact (hguard _ _ hop)) h
    refine ⟨?_, hexact.not_wrapped, hexact.within⟩
    rw [hlinked.counts.exact_of_not_wrapped hexact.not_wrapped,
      List.sum_toFinset _ hlinked.nodup]
    rfl

/-- The calls of a `get` that meets a file of the given content, last written at
the given time. -/
def callsOn (content : Bytes) (mtime : ℤ) : FileCalls where
  checkedMtime := some mtime
  opens := true
  size := some content.length
  allocates := true
  bytes := content
  loadedMtime := some mtime

/-- Ten bytes hold two pages; the third one evicts the page not used again. -/
theorem representation_invariant_three_pages :
    ∃ cache, system.exec (new 10)
        [.get (ascii "a") (callsOn (ascii "page") 1), .get (ascii "b") (callsOn (ascii "stored") 1),
          .get (ascii "a") (callsOn (ascii "page") 1),
          .get (ascii "c") (callsOn (ascii "third") 1)] = some cache ∧
      cache.paths = [ascii "c", ascii "a"] ∧ cache.Represented ∧ cache.Accounted := by
  have hrun : (system.exec (new 10)
      [.get (ascii "a") (callsOn (ascii "page") 1), .get (ascii "b") (callsOn (ascii "stored") 1),
        .get (ascii "a") (callsOn (ascii "page") 1),
        .get (ascii "c") (callsOn (ascii "third") 1)]).map paths = some [ascii "c", ascii "a"] := by
    decide +kernel
  obtain ⟨cache, hexec, hpaths⟩ := Option.map_eq_some_iff.mp hrun
  have hinit : system.init (new 10) := ⟨10, rfl⟩
  have hreachable : system.Reachable Fits cache :=
    (Transition.System.Reachable.initial hinit).exec (by decide +kernel) hexec
  have hall := representation_invariant hreachable
  exact ⟨cache, hexec, hpaths, hall.1, hall.2.2 fun _ _ => id⟩

end Sok.FileCache
