import Sok.Cache.Transparency
import Sok.Foundation.Paging

/-!
# What the limit is worth

`FileCache` counts its hits and misses.  Two caches that serve the same calls over the same files
are compared: the one with the larger limit holds all that the other one holds, at the front of its
list, and has no more misses (`larger_limit`).

One cache is compared with every other way to fill the same number of bytes on demand: over files
that do not change it misses at most `max_size / least` times as often, where every file has at
least `least` bytes (`misses_le_schedule`).
-/

namespace Sok.FileCache

open Recency (LongestFit total)
open Paging (Schedule touch)

/-! ## The counters -/

section Counters

variable {cache next : FileCache} {path : Bytes} {calls : FileCalls} {answer : CacheAnswer}

theorem evict_counters (cache : FileCache) :
    cache.evict.hits = cache.hits ∧ cache.evict.misses = cache.misses := by
  unfold evict
  cases cache.lruList.getLast? with
  | none => exact ⟨rfl, rfl⟩
  | some node =>
      dsimp only
      cases cache.files node.path <;> exact ⟨rfl, rfl⟩

theorem evictRounds_counters {fuel : ℕ} (h : evictRounds fuel cache = some next) :
    next.hits = cache.hits ∧ next.misses = cache.misses := by
  induction fuel generalizing cache with
  | zero =>
      unfold evictRounds at h
      split at h
      case isTrue => exact absurd h (by simp)
      case isFalse => exact Option.some.inj h ▸ ⟨rfl, rfl⟩
  | succ fuel ih =>
      unfold evictRounds at h
      split at h
      case isTrue =>
        obtain ⟨hhits, hmisses⟩ := ih h
        obtain ⟨hsame, hsame'⟩ := evict_counters cache
        exact ⟨hhits.trans hsame, hmisses.trans hsame'⟩
      case isFalse => exact Option.some.inj h ▸ ⟨rfl, rfl⟩

theorem beforeLoad_counters (cache : FileCache) (path : Bytes) :
    (cache.beforeLoad path).hits = cache.hits ∧
      (cache.beforeLoad path).misses = cache.misses + 1 := by
  unfold beforeLoad
  cases cache.files path <;> exact ⟨rfl, rfl⟩

theorem loadInto_counters (h : cache.loadInto path calls = some (next, answer)) :
    next.hits = cache.hits ∧ next.misses = cache.misses := by
  unfold loadInto at h
  cases hload : loadFile path calls with
  | failed =>
      rw [hload, Option.some.injEq, Prod.mk.injEq] at h
      exact h.1 ▸ ⟨rfl, rfl⟩
  | throws =>
      rw [hload, Option.some.injEq, Prod.mk.injEq] at h
      exact h.1 ▸ ⟨rfl, rfl⟩
  | loaded file =>
      rw [hload] at h
      obtain ⟨after, hevict, heq⟩ := Option.map_eq_some_iff.mp h
      obtain ⟨rfl, -⟩ := Prod.mk.inj heq
      have hloop := evictRounds_counters hevict
      exact hloop

theorem get_counters_of_misses (hmisses : cache.Misses path calls)
    (h : cache.get path calls = some (next, answer)) :
    next.hits = cache.hits ∧ next.misses = cache.misses + 1 := by
  have hload : (cache.beforeLoad path).loadInto path calls = some (next, answer) := by
    unfold get at h
    cases hfile : cache.files path with
    | none =>
        rw [hfile] at h
        exact h
    | some file =>
        rw [hfile] at h
        dsimp only at h
        rwa [if_pos (hmisses file hfile)] at h
  obtain ⟨hhits, hmissed⟩ := loadInto_counters hload
  obtain ⟨hsame, hmore⟩ := beforeLoad_counters cache path
  exact ⟨hhits.trans hsame, hmissed.trans hmore⟩

theorem get_of_fresh {file : CachedFile} (hfile : cache.files path = some file)
    (hfresh : isFileModified calls file.lastModified = false)
    (h : cache.get path calls = some (next, answer)) : next = cache.refresh path file := by
  unfold get at h
  rw [hfile] at h
  dsimp only at h
  rw [if_neg (by simp [hfresh]), Option.some.injEq, Prod.mk.injEq] at h
  exact h.1.symm

theorem get_counters (h : cache.get path calls = some (next, answer)) :
    (∃ file, cache.files path = some file ∧ isFileModified calls file.lastModified = false ∧
      next.hits = cache.hits + 1 ∧ next.misses = cache.misses) ∨
    (cache.Misses path calls ∧ next.hits = cache.hits ∧ next.misses = cache.misses + 1) := by
  by_cases hmisses : cache.Misses path calls
  · exact Or.inr ⟨hmisses, get_counters_of_misses hmisses h⟩
  · unfold Misses at hmisses
    push Not at hmisses
    obtain ⟨file, hfile, hmodified⟩ := hmisses
    have hfresh : isFileModified calls file.lastModified = false := by simpa using hmodified
    obtain rfl := get_of_fresh hfile hfresh h
    exact Or.inl ⟨file, hfile, hfresh, rfl, rfl⟩

theorem setMaxSize_counters {maxSize : ℕ} (h : cache.setMaxSize maxSize = some next) :
    next.hits = cache.hits ∧ next.misses = cache.misses := by
  have hloop := evictRounds_counters h
  exact hloop

end Counters

/-! ## A larger limit -/

/-- Files that never take their time back are loaded with memory to spare, and with the limit they
are fewer bytes than a `size_t` can count. -/
def Ordinary (world : World) : WorldOp → Prop
  | .get path allocates => allocates = true ∧
      ∀ file ∈ world.disk path, world.cache.maxSize + file.bytes.length < SizeT.card
  | .setMaxSize _ => True
  | .change path file => NeverBack world (.change path file)

instance (world : World) : ∀ op, Decidable (Ordinary world op)
  | .get path allocates =>
      inferInstanceAs (Decidable (allocates = true ∧
        ∀ file ∈ world.disk path, world.cache.maxSize + file.bytes.length < SizeT.card))
  | .setMaxSize _ => inferInstanceAs (Decidable True)
  | .change path file => inferInstanceAs (Decidable (NeverBack world (.change path file)))

/-- The large cache begins with what the small one holds, and has had no fewer hits. -/
structure Smaller (small large : World) : Prop where
  disk : small.disk = large.disk
  limit : small.cache.maxSize ≤ large.cache.maxSize
  front : small.cache.paths <+: large.cache.paths
  agree : ∀ path ∈ small.cache.paths, small.cache.contents path = large.cache.contents path
  hits : small.cache.hits ≤ large.cache.hits
  asked : small.cache.hits + small.cache.misses = large.cache.hits + large.cache.misses

/-- What is known of both caches on the way. -/
structure Ready (world : World) : Prop where
  upToDate : UpToDate world
  exact : world.cache.Exact

section Larger

variable {small large : World} {path : Bytes}

theorem Ordinary.neverBack {world : World} {op : WorldOp} (h : Ordinary world op) :
    NeverBack world op := by
  cases op with
  | get path allocates => trivial
  | setMaxSize maxSize => trivial
  | change path file => exact h

theorem Ready.addressable {world : World} (h : Ready world) {allocates : Bool}
    (hsize : ∀ file ∈ world.disk path, world.cache.maxSize + file.bytes.length < SizeT.card) :
    world.cache.Addressable (.get path (world.disk.calls path allocates)) := by
  apply h.upToDate.linked.addressable_of_fits h.exact
  intro size hmem
  obtain ⟨file, hfile, rfl⟩ := Option.map_eq_some_iff.mp hmem
  exact hsize file hfile

theorem Ready.step {world next : World} {op : WorldOp} (h : Ready world) (hop : Ordinary world op)
    (hstep : worldSystem.step world op = some next) : Ready next := by
  refine ⟨h.upToDate.step hop.neverBack hstep, ?_⟩
  cases op with
  | get path allocates =>
      obtain ⟨⟨cache, answer⟩, hget, rfl⟩ := Option.map_eq_some_iff.mp hstep
      apply h.upToDate.linked.exact_step h.exact (h.addressable hop.2)
      exact Option.map_eq_some_iff.mpr ⟨_, hget, rfl⟩
  | setMaxSize maxSize =>
      obtain ⟨cache, hset, rfl⟩ := Option.map_eq_some_iff.mp hstep
      have haddr : world.cache.Addressable (.setMaxSize maxSize) := trivial
      exact h.upToDate.linked.exact_step h.exact haddr hset
  | change path file =>
      obtain rfl := Option.some.inj hstep
      exact h.exact

/-- Paths of the small cache have the sizes they have in the large one. -/
theorem Smaller.fileSizeAt (h : Smaller small large) :
    ∀ path ∈ small.cache.paths, small.cache.fileSizeAt path = large.cache.fileSizeAt path := by
  intro path hpath
  rw [fileSizeAt_eq, fileSizeAt_eq, h.agree path hpath]

theorem Ready.step_isSome {world : World} (h : Ready world) (op : WorldOp) :
    ∃ next, worldSystem.step world op = some next := by
  cases op with
  | get path allocates =>
      obtain ⟨next, answer, heq, -⟩ := h.upToDate.linked.get path (world.disk.calls path allocates)
      exact ⟨_, Option.map_eq_some_iff.mpr ⟨_, heq, rfl⟩⟩
  | setMaxSize maxSize =>
      obtain ⟨next, heq, -⟩ := h.upToDate.linked.setMaxSize maxSize
      exact ⟨_, Option.map_eq_some_iff.mpr ⟨_, heq, rfl⟩⟩
  | change path file => exact ⟨_, rfl⟩

theorem ready_new (maxSize : ℕ) (disk : Disk) : Ready ⟨new maxSize, disk⟩ :=
  ⟨⟨linked_new maxSize, fun path file hfile => absurd hfile (by simp [contents, new])⟩, rfl,
    Nat.zero_le _⟩

/-- A fresh entry is what loading the file gives. -/
theorem UpToDate.loadFile_of_fresh {world : World} (h : UpToDate world) {file : CachedFile}
    (hfile : world.cache.files path = some file)
    (hfresh : isFileModified (world.disk.calls path true) file.lastModified = false) :
    loadFile path (world.disk.calls path true) = .loaded file.toLoadedFile := by
  have hcached : world.cache.contents path = some file.toLoadedFile := by
    unfold contents
    rw [hfile, Option.map_some]
  obtain ⟨entry, hentry, hreadable, hle, hsame⟩ := h.entries path _ hcached
  obtain ⟨hpos, hfilled, htyped⟩ := h.linked.sound path file hfile
  have hmtime : file.lastModified = entry.mtime := by
    unfold isFileModified getFileLastWriteTime Disk.calls at hfresh
    rw [hentry] at hfresh
    refine le_antisymm hle ?_
    simpa using hfresh
  have hbytes : file.content = entry.bytes := hsame hmtime
  have hlength : entry.bytes.length = file.fileSize := by rw [← hbytes, hfilled]
  unfold loadFile Disk.calls
  rw [hentry]
  simp only [Option.any_some, hreadable, Bool.true_eq_false, if_false, Option.map_some,
    getFileSize, Option.getD_some, hlength, hpos.ne', Option.elim_some, getFileLastWriteTime]
  rw [← hlength, readInto_length, ← hbytes, hfilled, ← hmtime, ← htyped]

theorem Smaller.fresh (h : Smaller small large) (hlinked : small.cache.Linked) {calls : FileCalls}
    {file : CachedFile} (hfile : small.cache.files path = some file)
    (hfresh : isFileModified calls file.lastModified = false) :
    ¬ large.cache.Misses path calls := by
  intro hmisses
  have hmem : path ∈ small.cache.paths := hlinked.mem_paths.mpr (by rw [hfile]; rfl)
  have hsame := h.agree path hmem
  unfold contents at hsame
  rw [hfile, Option.map_some] at hsame
  obtain ⟨other, hother, heq⟩ := Option.map_eq_some_iff.mp hsame.symm
  have hmodified := hmisses other hother
  rw [show other.lastModified = file.lastModified from congrArg LoadedFile.lastModified heq,
    hfresh] at hmodified
  exact absurd hmodified (by simp)

theorem Smaller.lists (h : Smaller small large) (hlinked : small.cache.Linked)
    (hlarge : UpToDate large) {a b : FileCache}
    (hsmallStep : LruStep small.cache (.get path (large.disk.calls path true)) a)
    (hlargeStep : LruStep large.cache (.get path (large.disk.calls path true)) b) :
    a.paths <+: b.paths ∧ ∀ other ∈ a.paths, a.contents other = b.contents other := by
  have hmoved := Paging.front_cons_erase h.front path
  cases hsmallStep with
  | @hit _ _ file _ hfile hfresh hlist hcontents =>
      have hpath : path ∈ small.cache.paths := hlinked.mem_paths.mpr (by rw [hfile]; rfl)
      cases hlargeStep with
      | hit _ _ hlist' hcontents' =>
          rw [hlist, hlist', hcontents, hcontents']
          refine ⟨hmoved, fun other hother => h.agree other ?_⟩
          rcases List.mem_cons.mp hother with rfl | hother
          · exact hpath
          · exact List.mem_of_mem_erase hother
      | load hmisses _ _ _ _ => exact absurd hmisses (h.fresh hlinked hfile hfresh)
      | unavailable hmisses _ _ _ => exact absurd hmisses (h.fresh hlinked hfile hfresh)
  | @load _ _ file _ hmisses hload hfit _ hcontents =>
      cases hlargeStep with
      | @hit _ _ cached _ hfile hfresh hlist' hcontents' =>
          have hsame := hlarge.loadFile_of_fresh hfile hfresh
          rw [hload, Load.loaded.injEq] at hsame
          refine ⟨hlist' ▸ hfit.kept_prefix.trans hmoved, fun other hother => ?_⟩
          rw [hcontents other hother, hcontents']
          by_cases heq : other = path
          · subst heq
            rw [Function.update_self, hsame]
            unfold contents
            rw [hfile, Option.map_some]
          · have hrest := (List.mem_cons.mp (hfit.kept_prefix.subset hother)).resolve_left heq
            rw [Function.update_of_ne heq]
            exact h.agree other (List.mem_of_mem_erase hrest)
      | @load _ _ file' _ _ hload' hfit' _ hcontents' =>
          obtain rfl : file = file' := by
            rw [hload, Load.loaded.injEq] at hload'
            exact hload'
          have hrest : ∀ other ∈ path :: small.cache.paths.erase path, other ≠ path →
              other ∈ small.cache.paths := fun other hother hne =>
            List.mem_of_mem_erase ((List.mem_cons.mp hother).resolve_left hne)
          have hfront : a.paths <+: b.paths := by
            apply hfit.kept_of_larger hfit' h.limit hmoved
            intro other hother
            by_cases heq : other = path
            · subst heq
              rw [Function.update_self, Function.update_self]
            · rw [Function.update_of_ne heq, Function.update_of_ne heq]
              exact h.fileSizeAt other (hrest other hother heq)
          refine ⟨hfront, fun other hother => ?_⟩
          rw [hcontents other hother, hcontents' other (hfront.subset hother)]
          by_cases heq : other = path
          · subst heq
            rw [Function.update_self, Function.update_self]
          · rw [Function.update_of_ne heq, Function.update_of_ne heq]
            exact h.agree other (hrest other (hfit.kept_prefix.subset hother) heq)
      | unavailable _ hload' _ _ => exact absurd hload (hload' file)
  | unavailable hmisses hload hlist hcontents =>
      cases hlargeStep with
      | hit hfile hfresh _ _ =>
          exact absurd (hlarge.loadFile_of_fresh hfile hfresh) (hload _)
      | @load _ _ file _ _ hload' _ _ _ => exact absurd hload' (hload file)
      | unavailable _ _ hlist' hcontents' =>
          rw [hlist, hlist', hcontents, hcontents']
          refine ⟨(List.prefix_cons_inj path).mp hmoved, fun other hother => ?_⟩
          by_cases heq : other = path
          · subst heq
            rw [Function.update_self, Function.update_self]
          · rw [Function.update_of_ne heq, Function.update_of_ne heq]
            exact h.agree other (List.mem_of_mem_erase hother)

theorem Smaller.counters (h : Smaller small large) (hlinked : small.cache.Linked)
    {calls : FileCalls} {a b : FileCache} {answer answer' : CacheAnswer}
    (hget : small.cache.get path calls = some (a, answer))
    (hget' : large.cache.get path calls = some (b, answer')) :
    a.hits ≤ b.hits ∧ a.hits + a.misses = b.hits + b.misses := by
  have hhits := h.hits
  have hasked := h.asked
  rcases get_counters hget with ⟨file, hfile, hfresh, _, _⟩ | ⟨_, _, _⟩
  · have hlarge := h.fresh hlinked hfile hfresh
    rcases get_counters hget' with ⟨_, _, _, _, _⟩ | ⟨hmisses, _, _⟩
    · omega
    · exact absurd hmisses hlarge
  · rcases get_counters hget' with ⟨_, _, _, _, _⟩ | ⟨_, _, _⟩ <;> omega

theorem Smaller.setMaxSize (h : Smaller small large) (hsmall : Ready small) (hlarge : Ready large)
    {maxSize : ℕ} {a b : FileCache} (hset : small.cache.setMaxSize maxSize = some a)
    (hset' : large.cache.setMaxSize maxSize = some b) :
    Smaller { small with cache := a } { large with cache := b } := by
  obtain ⟨a', heq, hevicted⟩ := hsmall.upToDate.linked.setMaxSize maxSize
  obtain rfl : a' = a := Option.some.inj (heq.symm.trans hset)
  obtain ⟨b', heq', hevicted'⟩ := hlarge.upToDate.linked.setMaxSize maxSize
  obtain rfl : b' = b := Option.some.inj (heq'.symm.trans hset')
  have hfit : LongestFit small.cache.fileSizeAt maxSize small.cache.paths a'.paths :=
    hevicted.longestFit hsmall.exact.not_wrapped
  have hfit' : LongestFit large.cache.fileSizeAt maxSize large.cache.paths b'.paths :=
    hevicted'.longestFit hlarge.exact.not_wrapped
  have hfront := hfit.kept_of_larger hfit' le_rfl h.front h.fileSizeAt
  obtain ⟨hhits, hmisses⟩ := setMaxSize_counters hset
  obtain ⟨hhits', hmisses'⟩ := setMaxSize_counters hset'
  refine ⟨h.disk, ?_, hfront, fun path hpath => ?_, ?_, ?_⟩
  · rw [hevicted.maxSize, hevicted'.maxSize]
  · calc a'.contents path = small.cache.contents path := hevicted.contents path hpath
      _ = large.cache.contents path := h.agree path (hfit.kept_prefix.subset hpath)
      _ = b'.contents path := (hevicted'.contents path (hfront.subset hpath)).symm
  · rw [hhits, hhits']
    exact h.hits
  · rw [hhits, hmisses, hhits', hmisses']
    exact h.asked

theorem Smaller.ordinary (h : Smaller small large) (hlinked : small.cache.Linked)
    (hlarge : large.cache.Linked) {op : WorldOp} (hop : Ordinary large op) : Ordinary small op := by
  cases op with
  | get path allocates =>
      refine ⟨hop.1, fun file hfile => ?_⟩
      rw [h.disk] at hfile
      calc small.cache.maxSize + file.bytes.length ≤ large.cache.maxSize + file.bytes.length :=
            Nat.add_le_add_right h.limit _
        _ < SizeT.card := hop.2 file hfile
  | setMaxSize maxSize => trivial
  | change path file =>
      intro hcached old hold
      rw [h.disk] at hold
      have hmem := h.front.subset (hlinked.mem_paths.mpr hcached)
      exact hop (hlarge.mem_paths.mp hmem) old hold

theorem Smaller.get (h : Smaller small large) (hsmall : Ready small) (hlarge : Ready large)
    (hop : Ordinary large (.get path true)) {a b : FileCache} {answer answer' : CacheAnswer}
    (hget : small.cache.get path (large.disk.calls path true) = some (a, answer))
    (hget' : large.cache.get path (large.disk.calls path true) = some (b, answer')) :
    Smaller { small with cache := a } { large with cache := b } := by
  have hother := h.ordinary hsmall.upToDate.linked hlarge.upToDate.linked hop
  have haddr : small.cache.Addressable (.get path (small.disk.calls path true)) :=
    hsmall.addressable hother.2
  rw [h.disk] at haddr
  have hgot := hsmall.upToDate.linked.got_of_get hget
  have hgot' := hlarge.upToDate.linked.got_of_get hget'
  obtain ⟨hfront, hagree⟩ := h.lists hsmall.upToDate.linked hlarge.upToDate
    (hsmall.upToDate.linked.lruStep_get hsmall.exact haddr hget)
    (hlarge.upToDate.linked.lruStep_get hlarge.exact (hlarge.addressable hop.2) hget')
  obtain ⟨hhits, hasked⟩ := h.counters hsmall.upToDate.linked hget hget'
  refine ⟨h.disk, ?_, hfront, hagree, hhits, hasked⟩
  calc a.maxSize = small.cache.maxSize := maxSize_of_got hgot
    _ ≤ large.cache.maxSize := h.limit
    _ = b.maxSize := (maxSize_of_got hgot').symm

theorem Smaller.step (h : Smaller small large) (hsmall : Ready small) (hlarge : Ready large)
    {op : WorldOp} (hop : Ordinary large op) {a b : World}
    (hstep : worldSystem.step small op = some a) (hstep' : worldSystem.step large op = some b) :
    Smaller a b := by
  cases op with
  | get path allocates =>
      obtain rfl : allocates = true := hop.1
      obtain ⟨⟨a, answer⟩, hget, rfl⟩ := Option.map_eq_some_iff.mp hstep
      obtain ⟨⟨b, answer'⟩, hget', rfl⟩ := Option.map_eq_some_iff.mp hstep'
      rw [h.disk] at hget
      exact h.get hsmall hlarge hop hget hget'
  | setMaxSize maxSize =>
      obtain ⟨a, hset, rfl⟩ := Option.map_eq_some_iff.mp hstep
      obtain ⟨b, hset', rfl⟩ := Option.map_eq_some_iff.mp hstep'
      exact h.setMaxSize hsmall hlarge hset hset'
  | change path file =>
      obtain rfl := Option.some.inj hstep
      obtain rfl := Option.some.inj hstep'
      refine ⟨?_, h.limit, h.front, h.agree, h.hits, h.asked⟩
      show Function.update small.disk path file = Function.update large.disk path file
      rw [h.disk]

theorem Smaller.exec (h : Smaller small large) (hsmall : Ready small) (hlarge : Ready large)
    {ops : List WorldOp} (hpermits : worldSystem.Permits Ordinary large ops) :
    ∃ a b, worldSystem.exec small ops = some a ∧ worldSystem.exec large ops = some b ∧
      Smaller a b := by
  induction ops generalizing small large with
  | nil => exact ⟨small, large, rfl, rfl, h⟩
  | cons op ops ih =>
      obtain ⟨hop, hlater⟩ := hpermits
      obtain ⟨nextSmall, hstep⟩ := hsmall.step_isSome op
      obtain ⟨nextLarge, hstep'⟩ := hlarge.step_isSome op
      have hother := h.ordinary hsmall.upToDate.linked hlarge.upToDate.linked hop
      obtain ⟨a, b, ha, hb, hrest⟩ := ih (h.step hsmall hlarge hop hstep hstep')
        (hsmall.step hother hstep) (hlarge.step hop hstep') (hlater nextLarge hstep')
      refine ⟨a, b, ?_, ?_, hrest⟩
      · exact Option.bind_eq_some_iff.mpr ⟨nextSmall, hstep, ha⟩
      · exact Option.bind_eq_some_iff.mpr ⟨nextLarge, hstep', hb⟩

end Larger

theorem smaller_new {limit larger : ℕ} (hle : limit ≤ larger) (disk : Disk) :
    Smaller ⟨new limit, disk⟩ ⟨new larger, disk⟩ :=
  ⟨rfl, hle, List.prefix_rfl, fun _ _ => rfl, le_rfl, rfl⟩

/-- Whatever is asked for, and however files change that are not cached, or that are and raise their
time, a cache with a larger limit holds what the smaller one holds, in the same order, before
anything else, and has no fewer hits and no more misses. -/
theorem larger_limit {limit larger : ℕ} (hle : limit ≤ larger) {disk : Disk} {ops : List WorldOp}
    (hpermits : worldSystem.Permits Ordinary ⟨new larger, disk⟩ ops) :
    ∃ small large, worldSystem.exec ⟨new limit, disk⟩ ops = some small ∧
      worldSystem.exec ⟨new larger, disk⟩ ops = some large ∧
      small.cache.paths <+: large.cache.paths ∧
      (∀ path ∈ small.cache.paths, small.cache.contents path = large.cache.contents path) ∧
      small.cache.hits ≤ large.cache.hits ∧ large.cache.misses ≤ small.cache.misses := by
  obtain ⟨small, large, hsmall, hlarge, hend⟩ :=
    (smaller_new hle disk).exec (ready_new limit disk) (ready_new larger disk) hpermits
  have hhits := hend.hits
  have hasked := hend.asked
  exact ⟨small, large, hsmall, hlarge, hend.front, hend.agree, hhits, by omega⟩

/-- Two pages, one of them asked for twice. -/
def twoPages : Disk := fun path =>
  if path = ascii "a" then some ⟨ascii "page", 1, true⟩
  else if path = ascii "b" then some ⟨ascii "stored", 1, true⟩ else none

/-- Six bytes hold one of the pages at a time, ten bytes both. -/
theorem larger_limit_two_pages :
    ∃ small large, worldSystem.exec ⟨new 6, twoPages⟩
        [.get (ascii "a") true, .get (ascii "b") true, .get (ascii "a") true] = some small ∧
      worldSystem.exec ⟨new 10, twoPages⟩
        [.get (ascii "a") true, .get (ascii "b") true, .get (ascii "a") true] = some large ∧
      small.cache.paths <+: large.cache.paths ∧ large.cache.misses ≤ small.cache.misses := by
  obtain ⟨small, large, hsmall, hlarge, hfront, -, -, hmisses⟩ :=
    @larger_limit 6 10 (by decide) twoPages
      [.get (ascii "a") true, .get (ascii "b") true, .get (ascii "a") true] (by decide +kernel)
  exact ⟨small, large, hsmall, hlarge, hfront, hmisses⟩

/-! ## Any other way to use the bytes -/

/-- The bytes of the file at a path. -/
def Disk.sizeAt (disk : Disk) (path : Bytes) : ℕ :=
  (disk path).elim 0 fun file => file.bytes.length

/-- A file that can be served from a cache of the given limit, at least `least` bytes long. -/
def Disk.Servable (disk : Disk) (maxSize least : ℕ) (path : Bytes) : Prop :=
  ∃ file ∈ disk path, file.readable = true ∧ 0 < file.bytes.length ∧ least ≤ file.bytes.length ∧
    file.bytes.length ≤ maxSize ∧ maxSize + file.bytes.length < SizeT.card

/-- A cache that has seen one version of the files. -/
structure Steady (disk : Disk) (cache : FileCache) : Prop where
  linked : cache.Linked
  exact : cache.Exact
  entries : ∀ path file, cache.contents path = some file →
    loadFile path (disk.calls path true) = .loaded file

section Steady

variable {disk : Disk} {cache : FileCache} {path : Bytes} {maxSize least : ℕ}

theorem steady_new (disk : Disk) (maxSize : ℕ) : Steady disk (new maxSize) :=
  ⟨linked_new maxSize, ⟨rfl, Nat.zero_le _⟩,
    fun path file hfile => absurd hfile (by simp [contents, new])⟩

/-- What is loaded for a path does not depend on the cache. -/
theorem Disk.Servable.loadFile (h : disk.Servable maxSize least path) :
    ∃ file, loadFile path (disk.calls path true) = .loaded file ∧
      file.fileSize = disk.sizeAt path := by
  obtain ⟨entry, hentry, hreadable, hpos, -⟩ := h
  have hentry : disk path = some entry := hentry
  unfold FileCache.loadFile Disk.calls Disk.sizeAt
  rw [hentry]
  simp only [Option.any_some, hreadable, Bool.true_eq_false, if_false, Option.map_some,
    getFileSize, Option.getD_some, hpos.ne', Option.elim_some]
  exact ⟨_, rfl, rfl⟩

theorem Steady.fresh (h : Steady disk cache) {file : CachedFile}
    (hfile : cache.files path = some file) :
    isFileModified (disk.calls path true) file.lastModified = false := by
  have hcached : cache.contents path = some file.toLoadedFile := by
    unfold contents
    rw [hfile, Option.map_some]
  obtain ⟨-, -, -, -, -, -, hmtime⟩ := loadFile_eq_loaded (h.entries path _ hcached)
  unfold isFileModified
  rw [hmtime]
  exact decide_eq_false (lt_irrefl _)

theorem Steady.fileSizeAt (h : Steady disk cache) (hmem : path ∈ cache.paths) :
    cache.fileSizeAt path = disk.sizeAt path := by
  obtain ⟨file, hfile⟩ := Option.isSome_iff_exists.mp (h.linked.mem_paths.mp hmem)
  have hcached : cache.contents path = some file.toLoadedFile := by
    unfold contents
    rw [hfile, Option.map_some]
  obtain ⟨-, -, hsize, -⟩ := loadFile_eq_loaded (h.entries path _ hcached)
  obtain ⟨entry, hentry, hlength⟩ := Option.map_eq_some_iff.mp hsize
  unfold Disk.sizeAt
  rw [fileSizeAt_of_eq_some hfile, hentry]
  exact hlength.symm

theorem Steady.refresh (h : Steady disk cache) {file : CachedFile}
    (hfile : cache.files path = some file) :
    Steady disk (cache.refresh path file) ∧
      (cache.refresh path file).paths = touch disk.sizeAt cache.maxSize path cache.paths := by
  have hmem : path ∈ cache.paths := h.linked.mem_paths.mpr (by rw [hfile]; rfl)
  refine ⟨⟨h.linked.refresh hfile, ⟨h.exact.not_wrapped, h.exact.within⟩, ?_⟩, ?_⟩
  · rw [contents_refresh hfile]
    exact h.entries
  · have hsizes : total disk.sizeAt cache.paths = cache.held :=
      (Recency.total_congr fun key hkey => h.fileSizeAt hkey).symm
    rw [h.linked.paths_refresh hfile]
    refine (Recency.fit_of_total_le ?_).symm
    calc total disk.sizeAt (path :: cache.paths.erase path) = total disk.sizeAt cache.paths := by
          rw [Recency.total_cons, Recency.total_erase hmem]
      _ = cache.currentSize.value := by
          rw [hsizes, h.linked.counts.exact_of_not_wrapped h.exact.not_wrapped]
      _ ≤ cache.maxSize := h.exact.within

theorem Steady.loaded (h : Steady disk cache) (hservable : disk.Servable cache.maxSize least path)
    (hmisses : cache.Misses path (disk.calls path true)) {next : FileCache} {answer : CacheAnswer}
    (hget : cache.get path (disk.calls path true) = some (next, answer)) :
    Steady disk next ∧ next.paths = touch disk.sizeAt cache.maxSize path cache.paths := by
  have hgot := h.linked.got_of_get hget
  obtain ⟨file, hload, hsize⟩ := hservable.loadFile
  have haddr : cache.Addressable (.get path (disk.calls path true)) := by
    apply h.linked.addressable_of_fits h.exact
    intro size hmem
    obtain ⟨entry, hentry, -, -, -, -, hfits⟩ := hservable
    obtain ⟨other, hother, rfl⟩ := Option.map_eq_some_iff.mp hmem
    obtain rfl : other = entry := Option.some.inj (hother.symm.trans hentry)
    exact hfits
  have hlinked : next.Linked := h.linked.of_got hgot
  have hexact : next.Exact :=
    h.linked.exact_step h.exact haddr (Option.map_eq_some_iff.mpr ⟨_, hget, rfl⟩)
  cases h.linked.lruStep_get h.exact haddr hget with
  | hit hfile hfresh _ _ => exact absurd (hmisses _ hfile) (by simp [hfresh])
  | unavailable _ hnone _ _ => exact absurd hload (hnone file)
  | @load _ _ other _ _ hload' hfit _ hcontents =>
      obtain rfl : other = file := by
        rw [hload, Load.loaded.injEq] at hload'
        exact hload'.symm
      refine ⟨⟨hlinked, hexact, fun key entry hentry => ?_⟩, ?_⟩
      · have hmem : key ∈ next.paths := by
          obtain ⟨cached, hcached, -⟩ := Option.map_eq_some_iff.mp hentry
          exact hlinked.mem_paths.mpr (Option.isSome_iff_exists.mpr ⟨cached, hcached⟩)
        rw [hcontents key hmem] at hentry
        by_cases heq : key = path
        · subst heq
          rw [Function.update_self, Option.some.injEq] at hentry
          exact hentry ▸ hload
        · rw [Function.update_of_ne heq] at hentry
          exact h.entries key entry hentry
      · apply hfit.eq_fit
        intro key hkey
        by_cases heq : key = path
        · rw [heq, Function.update_self, hsize]
        · rw [Function.update_of_ne heq]
          have hrest := (List.mem_cons.mp hkey).resolve_left heq
          exact h.fileSizeAt (List.mem_of_mem_erase hrest)

/-- A `get` of a file that can be served is a use of its path, and a miss only if the path was not
there. -/
theorem Steady.get (h : Steady disk cache) (hservable : disk.Servable cache.maxSize least path) :
    ∃ next answer, cache.get path (disk.calls path true) = some (next, answer) ∧
      Steady disk next ∧ next.maxSize = cache.maxSize ∧
      next.paths = touch disk.sizeAt cache.maxSize path cache.paths ∧
      next.misses = cache.misses + if path ∈ cache.paths then 0 else 1 := by
  obtain ⟨next, answer, hget, hgot⟩ := h.linked.get path (disk.calls path true)
  refine ⟨next, answer, hget, ?_⟩
  have hmax := maxSize_of_got hgot
  rcases get_counters hget with ⟨file, hfile, hfresh, -, hmissed⟩ | ⟨hmisses, -, hmissed⟩
  · obtain rfl := get_of_fresh hfile hfresh hget
    obtain ⟨hsteady, hpaths⟩ := h.refresh hfile
    have hmem : path ∈ cache.paths := h.linked.mem_paths.mpr (by rw [hfile]; rfl)
    refine ⟨hsteady, hmax, hpaths, ?_⟩
    rw [if_pos hmem]
    exact hmissed
  · obtain ⟨hsteady, hpaths⟩ := h.loaded hservable hmisses hget
    have hnot : path ∉ cache.paths := by
      intro hmem
      obtain ⟨file, hfile⟩ := Option.isSome_iff_exists.mp (h.linked.mem_paths.mp hmem)
      have hmodified := hmisses file hfile
      rw [h.fresh hfile] at hmodified
      exact absurd hmodified (by simp)
    refine ⟨hsteady, hmax, hpaths, ?_⟩
    rw [if_neg hnot]
    exact hmissed

/-- A run of `get`: the misses are the loads of least recently used. -/
theorem Steady.exec (h : Steady disk cache) {requests : List Bytes}
    (hservable : ∀ path ∈ requests, disk.Servable cache.maxSize least path) :
    ∃ world, worldSystem.exec ⟨cache, disk⟩ (requests.map fun path => .get path true) = some world ∧
      world.cache.misses =
        cache.misses + Paging.loads disk.sizeAt cache.maxSize cache.paths requests := by
  induction requests generalizing cache with
  | nil => exact ⟨⟨cache, disk⟩, rfl, rfl⟩
  | cons path requests ih =>
      obtain ⟨next, answer, hget, hsteady, hmax, hpaths, hmissed⟩ :=
        h.get (hservable path List.mem_cons_self)
      obtain ⟨world, hexec, hcount⟩ := ih hsteady fun other hother =>
        hmax ▸ hservable other (List.mem_cons_of_mem path hother)
      refine ⟨world, ?_, ?_⟩
      · refine Option.bind_eq_some_iff.mpr ⟨⟨next, disk⟩, ?_, hexec⟩
        exact Option.map_eq_some_iff.mpr ⟨_, hget, rfl⟩
      · calc world.cache.misses
            = next.misses + Paging.loads disk.sizeAt next.maxSize next.paths requests := hcount
          _ = cache.misses + ((if path ∈ cache.paths then 0 else 1) +
                Paging.loads disk.sizeAt cache.maxSize
                  (touch disk.sizeAt cache.maxSize path cache.paths) requests) := by
              rw [hmissed, hmax, hpaths, Nat.add_assoc]

end Steady

/-- No cache of the same bytes that loads files when they are asked for does much better, whatever
it evicts and whatever it knows of later requests: if every file has at least `least` bytes, the
misses are at most `max_size / least` times its loads. -/
theorem misses_le_schedule {disk : Disk} {maxSize least count : ℕ} (hleast : 0 < least)
    {requests : List Bytes} (hservable : ∀ path ∈ requests, disk.Servable maxSize least path)
    (hschedule : Schedule disk.sizeAt maxSize ∅ requests count) :
    ∃ world, worldSystem.exec ⟨new maxSize, disk⟩ (requests.map fun path => .get path true) =
        some world ∧ world.cache.misses ≤ maxSize / least * count := by
  obtain ⟨world, hexec, hmissed⟩ := (steady_new disk maxSize).exec hservable
  have hsize : ∀ path, path ∈ requests → least ≤ disk.sizeAt path ∧ disk.sizeAt path ≤ maxSize := by
    intro path hpath
    obtain ⟨file, hfile, -, -, hlarge, hsmall, -⟩ := hservable path hpath
    have hfile : disk path = some file := hfile
    unfold Disk.sizeAt
    rw [hfile]
    exact ⟨hlarge, hsmall⟩
  have hpages : Paging.AtMost (fun path => path ∈ requests) disk.sizeAt maxSize
      (maxSize / least) :=
    Paging.atMost_of_le hleast fun path hpath => (hsize path hpath).1
  refine ⟨world, hexec, ?_⟩
  calc world.cache.misses = 0 + Paging.loads disk.sizeAt maxSize [] requests := hmissed
    _ = Paging.loads disk.sizeAt maxSize [] requests := Nat.zero_add _
    _ ≤ maxSize / least * count :=
        Paging.loads_le hpages hschedule fun path hpath => (hsize path hpath).2

/-- One page in six bytes, which any schedule loads once. -/
theorem misses_le_schedule_one_page :
    ∃ world, worldSystem.exec ⟨new 6, twoPages⟩
        ([ascii "a", ascii "a"].map fun path => .get path true) = some world ∧
      world.cache.misses ≤ 6 / 4 * 1 := by
  have hsize : twoPages.sizeAt (ascii "a") = 4 := by decide +kernel
  have hservable : ∀ path ∈ [ascii "a", ascii "a"], twoPages.Servable 6 4 path := by
    intro path hpath
    obtain rfl : path = ascii "a" := by simpa using hpath
    exact ⟨⟨ascii "page", 1, true⟩, by decide +kernel, rfl, by decide, by decide, by decide,
      by decide⟩
  have hschedule : Schedule twoPages.sizeAt 6 ∅ [ascii "a", ascii "a"] 1 := by
    apply Schedule.load (Finset.notMem_empty _) (Finset.mem_singleton_self (ascii "a"))
    · exact fun path hpath => Or.inl (Finset.mem_singleton.mp hpath)
    · rw [Finset.sum_singleton, hsize]
      decide
    · exact .hit (Finset.mem_singleton_self _) (Finset.Subset.refl _) .nil
  exact misses_le_schedule (by decide) hservable hschedule

end Sok.FileCache
