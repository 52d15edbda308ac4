import Sok.Cache.Representation

/-!
# Files that cannot be loaded

`get` learns about a file through `stat`, `open` and `read`, and each of them can
fail.  A failed `stat` counts as the time 0, which is not newer than what is cached,
so a file that was deleted stays in the cache (`deleted_missing_iff`).  And the result
of `read` is not looked at: a buffer of the size that `stat` reported is cached, with
zeros where nothing was read (`load_complete_iff`).
-/

namespace Sok.FileCache

variable {cache : FileCache} {path : Bytes} {calls : FileCalls}

/-! ## Deleted files -/

/-- The path does not exist: `stat` and `open` both fail. -/
def Deleted (calls : FileCalls) : Prop :=
  calls.checkedMtime = none ∧ calls.opens = false

instance (calls : FileCalls) : Decidable (Deleted calls) :=
  inferInstanceAs (Decidable (_ ∧ _))

/-- `get` answers nothing and has no entry for the path afterwards. -/
def NotServed (cache : FileCache) (path : Bytes) (calls : FileCalls) : Prop :=
  ∃ next, cache.get path calls = some (next, .missing) ∧ next.files path = none

theorem loadFile_of_not_opens (h : calls.opens = false) : loadFile path calls = .failed :=
  if_pos h

theorem files_beforeLoad_self : (cache.beforeLoad path).files path = none := by
  unfold beforeLoad
  cases hfile : cache.files path with
  | none => exact hfile
  | some file => exact Function.update_self _ _ _

/-- Without a fresh entry, a load that fails leaves none. -/
theorem notServed_of_failed (hmisses : cache.Misses path calls)
    (hload : loadFile path calls = .failed) : NotServed cache path calls := by
  have hafter : (cache.beforeLoad path).loadInto path calls =
      some (cache.beforeLoad path, .missing) := by
    unfold loadInto
    rw [hload]
  refine ⟨cache.beforeLoad path, ?_, files_beforeLoad_self⟩
  unfold FileCache.get
  cases hfile : cache.files path with
  | none => exact hafter
  | some file =>
      dsimp only
      rw [if_pos (hmisses file hfile)]
      exact hafter

/-- The time of a failed `stat` is newer only than a time before the epoch. -/
theorem misses_iff_of_deleted (h : Deleted calls) :
    cache.Misses path calls ↔ ∀ file ∈ cache.files path, file.lastModified < 0 := by
  have htime : getFileLastWriteTime calls.checkedMtime = 0 := by rw [h.1]; rfl
  simp only [Misses, isFileModified, htime, decide_eq_true_eq]
  rfl

/-- **A deleted file is not served** from any state of the cache when, and only when,
it is not cached, or cached with a time before the epoch. -/
theorem deleted_missing_iff (cache : FileCache) (path : Bytes) (calls : FileCalls)
    (hdeleted : Deleted calls) :
    NotServed cache path calls ↔ ∀ file ∈ cache.files path, file.lastModified < 0 := by
  rw [← misses_iff_of_deleted hdeleted]
  constructor
  · rintro ⟨next, hget, -⟩ file hfile
    by_contra hfresh
    -- a fresh entry is answered
    unfold FileCache.get at hget
    rw [hfile] at hget
    dsimp only at hget
    rw [if_neg hfresh, Option.some.injEq, Prod.mk.injEq] at hget
    exact absurd hget.2 (by simp)
  · exact fun hmisses => notServed_of_failed hmisses (loadFile_of_not_opens hdeleted.2)

/-- What the calls return for a path that does not exist. -/
def callsOnNothing : FileCalls where
  checkedMtime := none
  opens := false
  size := none
  allocates := true
  bytes := []
  loadedMtime := none

theorem deleted_missing_uncached : NotServed (new 100) (ascii "a") callsOnNothing :=
  (deleted_missing_iff (new 100) (ascii "a") callsOnNothing (by decide)).mpr
    fun _ hfile => absurd hfile (by simp [new])

/-- A page that was served once is served again after it was deleted. -/
theorem deleted_page_served :
    ¬ ∀ cache, system.Reachable Transition.anyStep cache → ∀ path calls, Deleted calls →
      NotServed cache path calls := by
  intro h
  have hrun : (system.exec (new 100) [.get (ascii "a") (callsOn (ascii "page") 100)]).map
      (fun cache => (cache.get (ascii "a") callsOnNothing).map Prod.snd) =
        some (some (.found (ascii "page") octetStream)) := by
    decide +kernel
  obtain ⟨cache, hexec, hanswer⟩ := Option.map_eq_some_iff.mp hrun
  have hreach : system.Reachable Transition.anyStep cache :=
    Transition.System.reachable_of_exec (S := system) ⟨100, rfl⟩ hexec
  obtain ⟨next, hget, -⟩ := h cache hreach (ascii "a") callsOnNothing (by decide)
  rw [hget] at hanswer
  exact absurd (Option.some.inj hanswer) (by simp)

/-! ## Incomplete reads -/

/-- A load that succeeds has exactly the bytes that were read, and one that fails
leaves nothing in the cache and makes `get` answer nothing. -/
structure CompleteLoad (path : Bytes) (calls : FileCalls) : Prop where
  loaded : ∀ file, loadFile path calls = .loaded file →
    file.content = calls.bytes.take (getFileSize calls.size)
  failed : loadFile path calls = .failed → ∀ cache : FileCache, cache.Misses path calls →
    NotServed cache path calls

/-- The buffer has no padding when the read filled it. -/
theorem readInto_eq_take_iff (size : ℕ) (bytes : Bytes) :
    readInto size bytes = bytes.take size ↔ size ≤ bytes.length := by
  constructor
  · intro h
    have hlength := congrArg List.length h
    rw [length_readInto, List.length_take] at hlength
    omega
  · intro h
    rw [readInto, Nat.sub_eq_zero_of_le h, List.replicate_zero, List.append_nil]

/-- **A successful load is complete**, whatever the calls return, when and only when
nothing can be loaded (the path does not open, its size is 0, or there is no memory
for the buffer) or `read` delivers as many bytes as `stat` reported. -/
theorem load_complete_iff (path : Bytes) (calls : FileCalls) :
    CompleteLoad path calls ↔
      calls.opens = false ∨ getFileSize calls.size = 0 ∨ calls.allocates = false ∨
        getFileSize calls.size ≤ calls.bytes.length := by
  have hfailed : loadFile path calls = .failed → ∀ cache : FileCache,
      cache.Misses path calls → NotServed cache path calls :=
    fun hload _ hmisses => notServed_of_failed hmisses hload
  constructor
  · intro h
    by_cases hopens : calls.opens = false
    · exact Or.inl hopens
    by_cases hsize : getFileSize calls.size = 0
    · exact Or.inr (Or.inl hsize)
    by_cases hallocates : calls.allocates = false
    · exact Or.inr (Or.inr (Or.inl hallocates))
    have hload : loadFile path calls = .loaded
        { content := readInto (getFileSize calls.size) calls.bytes
          mimeType := getMimeType path
          lastModified := getFileLastWriteTime calls.loadedMtime
          fileSize := getFileSize calls.size } := by
      unfold loadFile
      dsimp only
      rw [if_neg hopens, if_neg hsize, if_neg hallocates]
    have hcontent := h.loaded _ hload
    exact Or.inr (Or.inr (Or.inr ((readInto_eq_take_iff _ _).mp hcontent)))
  · intro h
    refine ⟨fun file hload => ?_, hfailed⟩
    obtain ⟨hopens, hallocates, hsize, hpos, hcontent, -⟩ := loadFile_eq_loaded hload
    have hfile : getFileSize calls.size = file.fileSize := by rw [hsize]; rfl
    rw [hcontent, hfile]
    rcases h with hnot | hzero | hmemory | hread
    · exact absurd (hopens.symm.trans hnot) (by simp)
    · omega
    · exact absurd (hallocates.symm.trans hmemory) (by simp)
    · exact (readInto_eq_take_iff _ _).mpr (hfile ▸ hread)

/-- A directory: it opens, `stat` gives it a size, and nothing can be read from it. -/
def callsOnDirectory : FileCalls where
  checkedMtime := some 100
  opens := true
  size := some 4096
  allocates := true
  bytes := []
  loadedMtime := some 100

/-- A directory is loaded as a page of zeros. -/
theorem directory_loaded :
    ¬ ∀ path calls, calls.bytes.length ≤ getFileSize calls.size → CompleteLoad path calls := by
  intro h
  have hcomplete := (h (ascii "docs") callsOnDirectory (by decide)).loaded _ rfl
  exact absurd (congrArg List.length hcomplete) (by rw [length_readInto]; decide)

end Sok.FileCache
