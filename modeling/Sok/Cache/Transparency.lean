import Sok.Cache.Lru

/-!
# Transparency of the file cache

A run of the cache over files that change between its calls.  As long as the
time of a cached file never goes back, and goes forward with its bytes, `get`
answers what loading the file would: its bytes and MIME type, or nothing when it
cannot be opened or is empty.

## Strategy

The invariant (`UpToDate`) compares every entry with the file as it is now: the entry's
time is no later than the file's, and if the two times are equal so are the bytes.  A call
of the cache keeps it, since what it keeps was there and what it loads is the file at this
moment; a change keeps it by `NeverBack`.  An answer is current because a `get` uses an
entry only when the times are equal, and otherwise loads.
-/

namespace Sok.FileCache

/-! ## Files that change -/

/-- A file: its bytes, `st_mtime` and whether it can be opened. -/
structure DiskFile where
  bytes : Bytes
  mtime : ℤ
  readable : Bool
  deriving DecidableEq

/-- The file system behind the paths. -/
abbrev Disk := Bytes → Option DiskFile

namespace Disk

/-- What the calls of one `get` return while the files do not change: only
regular files can be opened, and reads are complete. -/
def calls (disk : Disk) (path : Bytes) (allocates : Bool) : FileCalls where
  checkedMtime := (disk path).map DiskFile.mtime
  opens := (disk path).any DiskFile.readable
  size := (disk path).map fun file => file.bytes.length
  allocates := allocates
  bytes := (disk path).elim [] DiskFile.bytes
  loadedMtime := (disk path).map DiskFile.mtime

/-- What `get` is for: the bytes of the file at this moment. -/
def current (disk : Disk) (path : Bytes) : CacheAnswer :=
  match disk path with
  | none => .missing
  | some file =>
      if file.readable = false ∨ file.bytes = [] then .missing
      else .found file.bytes (getMimeType path)

end Disk

/-- A cache and the files. -/
structure World where
  cache : FileCache
  disk : Disk

/-- The steps of a run: calls, and changes of one path between them. -/
inductive WorldOp
  | get (path : Bytes) (allocates : Bool)
  | setMaxSize (maxSize : ℕ)
  | change (path : Bytes) (file : Option DiskFile)

/-- Runs of a cache over changing files. -/
def worldSystem : Transition.System World WorldOp where
  init world := ∃ maxSize, world.cache = new maxSize
  step world
    | .get path allocates =>
        (world.cache.get path (world.disk.calls path allocates)).map fun (cache, _) =>
          { world with cache := cache }
    | .setMaxSize maxSize =>
        (world.cache.setMaxSize maxSize).map fun cache => { world with cache := cache }
    | .change path file => some { world with disk := Function.update world.disk path file }

/-- Every `get` answers what loading the file would, whatever is cached. -/
def Transparent (world : World) : Prop :=
  ∀ path, ∃ next, world.cache.get path (world.disk.calls path true) =
    some (next, world.disk.current path)

/-- No file is removed or made unreadable, and the time of a file goes forward
when its bytes change. -/
def RaisesOnChange (world : World) : WorldOp → Prop
  | .change path file => ∀ old ∈ world.disk path, ∃ new ∈ file,
      new.readable = true ∧ (new.bytes ≠ old.bytes → old.mtime < new.mtime)
  | _ => True

/-- No cached file is removed or made unreadable, and the time of a cached file
goes forward when its bytes change and never goes back. -/
def NeverBack (world : World) : WorldOp → Prop
  | .change path file => (world.cache.files path).isSome → ∀ old ∈ world.disk path,
      ∃ new ∈ file, new.readable = true ∧ (new.bytes ≠ old.bytes → old.mtime < new.mtime) ∧
        old.mtime ≤ new.mtime
  | _ => True

instance (world : World) : ∀ op, Decidable (RaisesOnChange world op)
  | .change path file =>
      inferInstanceAs (Decidable (∀ old ∈ world.disk path, ∃ new ∈ file,
        new.readable = true ∧ (new.bytes ≠ old.bytes → old.mtime < new.mtime)))
  | .get _ _ => inferInstanceAs (Decidable True)
  | .setMaxSize _ => inferInstanceAs (Decidable True)

instance (world : World) : ∀ op, Decidable (NeverBack world op)
  | .change path file =>
      inferInstanceAs (Decidable ((world.cache.files path).isSome → ∀ old ∈ world.disk path,
        ∃ new ∈ file, new.readable = true ∧ (new.bytes ≠ old.bytes → old.mtime < new.mtime) ∧
          old.mtime ≤ new.mtime))
  | .get _ _ => inferInstanceAs (Decidable True)
  | .setMaxSize _ => inferInstanceAs (Decidable True)

/-! ## Loading -/

section

variable {disk : Disk} {path : Bytes}

theorem readInto_length (bytes : Bytes) : readInto bytes.length bytes = bytes := by
  simp [readInto]

theorem loadFile_calls {file : LoadedFile} {allocates : Bool}
    (h : loadFile path (disk.calls path allocates) = .loaded file) :
    ∃ entry, disk path = some entry ∧ entry.readable = true ∧ file.content = entry.bytes ∧
      file.lastModified = entry.mtime ∧ disk.current path = .found file.content file.mimeType := by
  obtain ⟨hopens, -, hsize, hpos, hcontent, hmime, hmtime⟩ := loadFile_eq_loaded h
  unfold Disk.calls at hopens hsize hcontent hmtime
  unfold Disk.current
  cases hentry : disk path with
  | none =>
      rw [hentry] at hsize
      exact absurd hsize (by simp)
  | some entry =>
      rw [hentry] at hopens hsize hcontent hmtime
      have hlength : entry.bytes.length = file.fileSize := Option.some.inj hsize
      have hbytes : file.content = entry.bytes := by
        rw [hcontent, ← hlength]
        exact readInto_length entry.bytes
      have hreadable : entry.readable = true := hopens
      have hnonempty : entry.bytes ≠ [] := by
        rw [← List.length_pos_iff, hlength]
        exact hpos
      refine ⟨entry, rfl, hreadable, hbytes, hmtime, ?_⟩
      dsimp only
      rw [if_neg (by simp [hreadable, hnonempty]), hbytes, hmime]

/-- Loading fails only when there is nothing to answer. -/
theorem current_of_failed {allocates : Bool}
    (h : loadFile path (disk.calls path allocates) = .failed) : disk.current path = .missing := by
  unfold Disk.current
  cases hentry : disk path with
  | none => rfl
  | some entry =>
      refine if_pos ?_
      by_contra hnot
      obtain ⟨hreadable, hnonempty⟩ := not_or.mp hnot
      have hsize : ¬ entry.bytes.length = 0 := by simpa using hnonempty
      unfold loadFile Disk.calls at h
      cases allocates <;> simp_all [getFileSize]

theorem loadFile_calls_ne_throws : loadFile path (disk.calls path true) ≠ .throws := by
  have hallocates : ¬ (disk.calls path true).allocates = false := by simp [Disk.calls]
  unfold loadFile
  dsimp only
  rw [if_neg hallocates]
  split
  · simp
  · split <;> simp

end

/-! ## The run -/

/-- Every cached file was loaded from a version of the file that is no newer than
the file, and has its bytes if it is not older. -/
structure UpToDate (world : World) : Prop where
  linked : world.cache.Linked
  entries : ∀ path file, world.cache.contents path = some file →
    ∃ entry, world.disk path = some entry ∧ entry.readable = true ∧
      file.lastModified ≤ entry.mtime ∧
      (file.lastModified = entry.mtime → file.content = entry.bytes)

section

variable {world : World} {path : Bytes}

/-- The entries of a part of the cache are up to date as well. -/
theorem UpToDate.of_contents (h : UpToDate world) {cache : FileCache} (hlinked : cache.Linked)
    (hsub : ∀ path file, cache.contents path = some file → world.cache.contents path = some file) :
    UpToDate { world with cache := cache } :=
  ⟨hlinked, fun path file hfile => h.entries path file (hsub path file hfile)⟩

theorem UpToDate.beforeLoad (h : UpToDate world) (path : Bytes) :
    UpToDate { world with cache := world.cache.beforeLoad path } := by
  refine h.of_contents (h.linked.beforeLoad path).1 fun other file hfile => ?_
  rw [contents_beforeLoad] at hfile
  by_cases heq : other = path
  · simp [heq] at hfile
  · rwa [Function.update_of_ne heq] at hfile

/-- Entries that survive an eviction loop are those that were there. -/
theorem UpToDate.evicted (h : UpToDate world) {cache : FileCache}
    (hevicted : Evicted world.cache cache) : UpToDate { world with cache := cache } := by
  refine h.of_contents hevicted.linked fun path file hfile => ?_
  have hsome : (cache.files path).isSome := by
    unfold contents at hfile
    cases hc : cache.files path with
    | none => simp [hc] at hfile
    | some _ => rfl
  rw [← hevicted.contents path (hevicted.linked.mem_paths.mpr hsome)]
  exact hfile

theorem UpToDate.insert (h : UpToDate world) {file : LoadedFile} {calls : FileCalls}
    (hload : loadFile path calls = .loaded file)
    (hdisk : ∃ entry, world.disk path = some entry ∧ entry.readable = true ∧
      file.content = entry.bytes ∧ file.lastModified = entry.mtime) :
    UpToDate { world with cache := (world.cache.beforeLoad path).insert path file } := by
  refine ⟨h.linked.insert_beforeLoad hload, fun other entry hentry => ?_⟩
  rw [contents_insert] at hentry
  by_cases heq : other = path
  · subst heq
    rw [Function.update_self, Option.some.injEq] at hentry
    subst hentry
    obtain ⟨old, hold, hreadable, hbytes, hmtime⟩ := hdisk
    exact ⟨old, hold, hreadable, hmtime.le, fun _ => hbytes⟩
  · rw [Function.update_of_ne heq] at hentry
    exact (h.beforeLoad path).entries other entry hentry

theorem UpToDate.got (h : UpToDate world) {next : FileCache} {answer : CacheAnswer}
    {calls : FileCalls} (hgot : Got world.cache path calls next answer)
    (hdisk : ∀ file, loadFile path calls = .loaded file → ∃ entry,
      world.disk path = some entry ∧ entry.readable = true ∧ file.content = entry.bytes ∧
        file.lastModified = entry.mtime) :
    UpToDate { world with cache := next } := by
  cases hgot with
  | hit hfile _ =>
      refine h.of_contents (h.linked.refresh hfile) fun other file hother => ?_
      rwa [contents_refresh hfile] at hother
  | failed _ _ => exact h.beforeLoad path
  | threw _ _ => exact h.beforeLoad path
  | loaded _ hload hevicted => exact (h.insert hload (hdisk _ hload)).evicted hevicted

/-- A change of a file that never takes its time back. -/
theorem UpToDate.change (h : UpToDate world) {file : Option DiskFile}
    (hback : NeverBack world (.change path file)) :
    UpToDate { world with disk := Function.update world.disk path file } := by
  refine ⟨h.linked, fun other cached hcached => ?_⟩
  obtain ⟨old, hold, hreadable, hle, hsame⟩ := h.entries other cached hcached
  by_cases heq : other = path
  · subst heq
    obtain ⟨entry, hentry, -⟩ := Option.map_eq_some_iff.mp hcached
    have hsome : (world.cache.files other).isSome := Option.isSome_iff_exists.mpr ⟨entry, hentry⟩
    obtain ⟨new, hnew, hopens, hraise, hmono⟩ := hback hsome old hold
    refine ⟨new, (Function.update_self ..).trans hnew, hopens, hle.trans hmono, fun htime => ?_⟩
    -- the times agree all along, so the bytes did not change
    have hbytes : new.bytes = old.bytes := by
      by_contra hne
      have := hraise hne
      omega
    rw [hbytes]
    exact hsame (by omega)
  · exact ⟨old, (Function.update_of_ne heq ..).trans hold, hreadable, hle, hsame⟩

theorem UpToDate.step (h : UpToDate world) {op : WorldOp} {next : World}
    (hback : NeverBack world op) (hstep : worldSystem.step world op = some next) :
    UpToDate next := by
  cases op with
  | get path allocates =>
      obtain ⟨⟨cache, answer⟩, hget, rfl⟩ := Option.map_eq_some_iff.mp hstep
      refine h.got (h.linked.got_of_get hget) fun file hload => ?_
      obtain ⟨entry, hentry, hreadable, hbytes, hmtime, -⟩ := loadFile_calls hload
      exact ⟨entry, hentry, hreadable, hbytes, hmtime⟩
  | setMaxSize maxSize =>
      obtain ⟨cache, hset, rfl⟩ := Option.map_eq_some_iff.mp hstep
      obtain ⟨cache', heq, hevicted⟩ := h.linked.setMaxSize maxSize
      obtain rfl : cache' = cache := Option.some.inj (heq.symm.trans hset)
      obtain ⟨⟨hthreaded, hsound, hcounts⟩, hentries⟩ := h
      have hbefore : UpToDate { world with cache := { world.cache with maxSize := maxSize } } :=
        ⟨⟨hthreaded, hsound, hcounts⟩, hentries⟩
      exact hbefore.evicted hevicted
  | change path file =>
      obtain rfl := Option.some.inj hstep
      exact h.change hback

/-- With entries that are up to date every answer is the current one. -/
theorem UpToDate.transparent (h : UpToDate world) : Transparent world := by
  intro path
  obtain ⟨next, answer, hget, hgot⟩ := h.linked.get path (world.disk.calls path true)
  refine ⟨next, hget.trans ?_⟩
  suffices hanswer : answer = world.disk.current path by rw [hanswer]
  cases hgot with
  | @hit file hfile hfresh =>
      have hcached : world.cache.contents path = some file.toLoadedFile := by
        unfold contents
        rw [hfile, Option.map_some]
      obtain ⟨entry, hentry, hreadable, hle, hsame⟩ := h.entries path _ hcached
      obtain ⟨hpos, hfilled, htyped⟩ := h.linked.sound path file hfile
      unfold isFileModified getFileLastWriteTime Disk.calls at hfresh
      rw [hentry] at hfresh
      have hbytes : file.content = entry.bytes := by
        refine hsame (le_antisymm hle ?_)
        simpa using hfresh
      have hnonempty : entry.bytes ≠ [] := by
        rw [← hbytes, ← List.length_pos_iff, hfilled]
        exact hpos
      unfold Disk.current
      rw [hentry]
      dsimp only
      rw [if_neg (by simp [hreadable, hnonempty]), hbytes, htyped]
  | failed _ hload => exact (current_of_failed hload).symm
  | threw _ hload => exact absurd hload loadFile_calls_ne_throws
  | loaded _ hload _ =>
      obtain ⟨_, _, _, _, _, hcurrent⟩ := loadFile_calls hload
      exact hcurrent.symm

end

/-- In every run in which the times of cached files never go back, every `get`
answers what the file holds at that moment. -/
theorem cache_transparent {world : World} (h : worldSystem.Reachable NeverBack world) :
    Transparent world := by
  have hall : UpToDate world := by
    refine h.invariant ?_ ?_
    · rintro ⟨cache, disk⟩ ⟨maxSize, rfl⟩
      exact ⟨linked_new maxSize, fun path file hfile => absurd hfile (by simp [contents, new])⟩
    · intro world op next hback hstep hworld
      exact hworld.step hback hstep
  exact hall.transparent

/-- A page that is written again. -/
theorem cache_transparent_edited :
    ∃ world, worldSystem.exec ⟨new 100, fun _ => some ⟨ascii "old", 100, true⟩⟩
        [.get (ascii "a") true, .change (ascii "a") (some ⟨ascii "new", 101, true⟩)] = some world ∧
      Transparent world := by
  have hrun : (worldSystem.exec ⟨new 100, fun _ => some ⟨ascii "old", 100, true⟩⟩
      [.get (ascii "a") true,
        .change (ascii "a") (some ⟨ascii "new", 101, true⟩)]).isSome := by
    decide +kernel
  obtain ⟨world, hexec⟩ := Option.isSome_iff_exists.mp hrun
  have hinit : worldSystem.init ⟨new 100, fun _ => some ⟨ascii "old", 100, true⟩⟩ := ⟨100, rfl⟩
  have hreachable : worldSystem.Reachable NeverBack world :=
    (Transition.System.Reachable.initial hinit).exec (by decide +kernel) hexec
  exact ⟨world, hexec, cache_transparent hreachable⟩

/-- A cached page whose time is set back and that is then written again: every
change of its bytes raises the time, but not above the time it was cached with,
and the old bytes are answered. -/
theorem stale_page_after_touch :
    ∃ world, worldSystem.Reachable RaisesOnChange world ∧ ¬ Transparent world := by
  have hrun : (worldSystem.exec ⟨new 100, fun _ => some ⟨ascii "old", 100, true⟩⟩
      [.get (ascii "a") true, .change (ascii "a") (some ⟨ascii "old", 50, true⟩),
        .change (ascii "a") (some ⟨ascii "new", 60, true⟩)]).map (fun world =>
      ((world.cache.get (ascii "a") (world.disk.calls (ascii "a") true)).map Prod.snd,
        world.disk.current (ascii "a"))) =
      some (some (.found (ascii "old") octetStream), .found (ascii "new") octetStream) := by
    decide +kernel
  obtain ⟨world, hexec, hanswers⟩ := Option.map_eq_some_iff.mp hrun
  obtain ⟨hanswer, hcurrent⟩ := Prod.mk.inj hanswers
  have hinit : worldSystem.init ⟨new 100, fun _ => some ⟨ascii "old", 100, true⟩⟩ := ⟨100, rfl⟩
  refine ⟨world, (Transition.System.Reachable.initial hinit).exec (by decide +kernel) hexec, ?_⟩
  intro htransparent
  obtain ⟨next, hget⟩ := htransparent (ascii "a")
  rw [hget, Option.map_some, hcurrent, Option.some.injEq, CacheAnswer.found.injEq] at hanswer
  exact absurd hanswer.1 (by decide)

end Sok.FileCache
