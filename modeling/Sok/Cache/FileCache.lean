import Mathlib.Data.Nat.ModEq
import Sok.Cache.Mime
import Sok.Foundation.Recency
import Sok.Foundation.Transition

/-!
# The file cache

`FileCache`: a hash map from paths to files, a list of the paths in the order
of their last use, in which every file holds an iterator, and a byte counter.
Every call of `get` stands for one critical section; what the file system
answers to its calls is given as `FileCalls`.

The byte counter is a `SizeT`, which may wrap.  `hits` and `misses` are `size_t` as
well, but natural numbers here: they would wrap after `2 ^ 64` calls, and what is
proved of them is about as many calls as they can count.

`Linked` relates map, list and counter.  It holds in every state, also in the
middle of a call, and it is what makes the eviction loops end.
-/

namespace Sok

/-- What `FileCache::get` does with a path. -/
inductive CacheAnswer
  | found (content mime : Bytes)
  | missing  -- `std::nullopt`
  | throws
  deriving DecidableEq

/-- A `size_t`.  The flag is not in the source: it records that an operation on
this counter has wrapped. -/
structure SizeT where
  value : ℕ
  wrapped : Bool
  deriving DecidableEq

namespace SizeT

/-- The number of values of a `size_t`. -/
abbrev card : ℕ := 2 ^ 64

def zero : SizeT := ⟨0, false⟩

/-- `+=`. -/
def add (a : SizeT) (n : ℕ) : SizeT :=
  ⟨(a.value + n) % card, a.wrapped || decide (card ≤ a.value + n)⟩

/-- `-=`. -/
def sub (a : SizeT) (n : ℕ) : SizeT :=
  ⟨(a.value + (card - n % card)) % card, a.wrapped || decide (a.value < n)⟩

/-- The counter counts `n` bytes: exactly, as long as nothing wrapped, and
modulo `2 ^ 64` in any case. -/
structure Counts (a : SizeT) (n : ℕ) : Prop where
  modulo : a.value = n % card
  exact_of_not_wrapped : a.wrapped = false → a.value = n

theorem counts_zero : zero.Counts 0 := ⟨rfl, fun _ => rfl⟩

theorem Counts.add {a : SizeT} {n : ℕ} (h : a.Counts n) (m : ℕ) : (a.add m).Counts (n + m) := by
  obtain ⟨hmod, hexact⟩ := h
  unfold SizeT.add
  refine ⟨?_, ?_⟩
  · dsimp only [card] at hmod ⊢
    omega
  · intro hwrap
    simp only [card, Bool.or_eq_false_iff, decide_eq_false_iff_not] at hmod hwrap ⊢
    have := hexact hwrap.1
    omega

theorem Counts.sub {a : SizeT} {n m : ℕ} (h : a.Counts (m + n)) : (a.sub m).Counts n := by
  obtain ⟨hmod, hexact⟩ := h
  unfold SizeT.sub
  refine ⟨?_, ?_⟩
  · dsimp only [card] at hmod ⊢
    omega
  · intro hwrap
    simp only [card, Bool.or_eq_false_iff, decide_eq_false_iff_not] at hmod hwrap ⊢
    have := hexact hwrap.1
    omega

theorem wrapped_add_of_lt {a : SizeT} {n m : ℕ} (h : a.Counts n) (hwrap : a.wrapped = false)
    (hlt : n + m < card) : (a.add m).wrapped = false := by
  have := h.exact_of_not_wrapped hwrap
  simp only [SizeT.add, hwrap, Bool.false_or, decide_eq_false_iff_not]
  omega

theorem wrapped_sub {a : SizeT} {n m : ℕ} (h : a.Counts (m + n)) (hwrap : a.wrapped = false) :
    (a.sub m).wrapped = false := by
  have := h.exact_of_not_wrapped hwrap
  simp only [SizeT.sub, hwrap, Bool.false_or, decide_eq_false_iff_not]
  omega

end SizeT

namespace FileCache

/-! ## The data -/

/-- What `load_file` fills in. -/
structure LoadedFile where
  content : Bytes
  mimeType : Bytes
  lastModified : ℤ
  fileSize : ℕ
  deriving DecidableEq

/-- `CachedFile`: a loaded file and its place in the list. -/
structure CachedFile extends LoadedFile where
  /-- `lru_it`, the identity of a list node. -/
  lruIt : ℕ
  deriving DecidableEq

/-- A node of `lru_list_`.  Nodes keep their identity for as long as they are in
the list. -/
structure LruNode where
  id : ℕ
  path : Bytes
  deriving DecidableEq

end FileCache

/-- `FileCache`.  `lru_list_` is listed from the front; `nextNode` is the
identity of the next node. -/
structure FileCache where
  maxSize : ℕ
  currentSize : SizeT
  lruList : List FileCache.LruNode
  files : Bytes → Option FileCache.CachedFile
  hits : ℕ
  misses : ℕ
  nextNode : ℕ

namespace FileCache

/-- The constructor. -/
def new (maxSize : ℕ) : FileCache where
  maxSize := maxSize
  currentSize := SizeT.zero
  lruList := []
  files := fun _ => none
  hits := 0
  misses := 0
  nextNode := 0

/-- The cached paths, the most recently used one first. -/
def paths (cache : FileCache) : List Bytes :=
  cache.lruList.map LruNode.path

/-- The size of the file cached for a path. -/
def fileSizeAt (cache : FileCache) (path : Bytes) : ℕ :=
  (cache.files path).elim 0 fun file => file.fileSize

/-! ## Loading a file -/

/-- What the calls of one `get` return, in their order: `stat` in
`is_file_modified`, the constructor of `ifstream`, `stat` in `get_file_size`,
the allocation in `resize`, the bytes that `read` delivers, and `stat` for the
time of the loaded file.  `none` is a `stat` that fails. -/
structure FileCalls where
  checkedMtime : Option ℤ
  opens : Bool
  size : Option ℕ
  allocates : Bool
  bytes : Bytes
  loadedMtime : Option ℤ
  deriving DecidableEq

/-- `get_file_last_write_time` and `get_file_size` return 0 when `stat` fails. -/
def getFileLastWriteTime (stat : Option ℤ) : ℤ := stat.getD 0

@[inherit_doc getFileLastWriteTime]
def getFileSize (stat : Option ℕ) : ℕ := stat.getD 0

/-- `is_file_modified`. -/
def isFileModified (calls : FileCalls) (cachedTime : ℤ) : Bool :=
  decide (cachedTime < getFileLastWriteTime calls.checkedMtime)

/-- `file.read` into a buffer of zeros. -/
def readInto (size : ℕ) (bytes : Bytes) : Bytes :=
  bytes.take size ++ List.replicate (size - bytes.length) 0

theorem length_readInto (size : ℕ) (bytes : Bytes) : (readInto size bytes).length = size := by
  unfold readInto
  rw [List.length_append, List.length_take, List.length_replicate]
  omega

inductive Load
  | loaded (file : LoadedFile)
  | failed
  | throws

/-- `load_file`. -/
def loadFile (path : Bytes) (calls : FileCalls) : Load :=
  if calls.opens = false then .failed
  else
    let fileSize := getFileSize calls.size
    if fileSize = 0 then .failed
    else if calls.allocates = false then .throws
    else .loaded
      { content := readInto fileSize calls.bytes
        mimeType := getMimeType path
        lastModified := getFileLastWriteTime calls.loadedMtime
        fileSize := fileSize }

/-- What a loaded file is made of. -/
theorem loadFile_eq_loaded {path : Bytes} {calls : FileCalls} {file : LoadedFile}
    (h : loadFile path calls = .loaded file) :
    calls.opens = true ∧ calls.allocates = true ∧ calls.size = some file.fileSize ∧
      0 < file.fileSize ∧ file.content = readInto file.fileSize calls.bytes ∧
      file.mimeType = getMimeType path ∧
      file.lastModified = getFileLastWriteTime calls.loadedMtime := by
  unfold loadFile at h
  by_cases hopens : calls.opens = false
  · rw [if_pos hopens] at h
    exact absurd h (by simp)
  by_cases hsize : getFileSize calls.size = 0
  · rw [if_neg hopens, if_pos hsize] at h
    exact absurd h (by simp)
  by_cases hallocates : calls.allocates = false
  · rw [if_neg hopens, if_neg hsize, if_pos hallocates] at h
    exact absurd h (by simp)
  rw [if_neg hopens, if_neg hsize, if_neg hallocates, Load.loaded.injEq] at h
  subst h
  have hsome : calls.size = some (getFileSize calls.size) := by
    cases hc : calls.size with
    | none => exact absurd (by rw [hc]; rfl) hsize
    | some n => rfl
  exact ⟨by simpa using hopens, by simpa using hallocates, hsome, Nat.pos_of_ne_zero hsize,
    rfl, rfl, rfl⟩

/-! ## The operations -/

/-- `lru_list_.erase(it)`. -/
def eraseNode (nodes : List LruNode) (it : ℕ) : List LruNode :=
  nodes.eraseP fun node => node.id = it

/-- `evict`: nothing when the list is empty. -/
def evict (cache : FileCache) : FileCache :=
  match cache.lruList.getLast? with
  | none => cache
  | some node =>
      match cache.files node.path with
      | some file =>
          { cache with
            currentSize := cache.currentSize.sub file.fileSize
            files := Function.update cache.files node.path none
            lruList := cache.lruList.dropLast }
      | none => { cache with lruList := cache.lruList.dropLast }

/-- At most `fuel` rounds of `while (current_size_ > max_size_) evict()`; `none`
when the loop has not ended by then. -/
def evictRounds : ℕ → FileCache → Option FileCache
  | 0, cache => if cache.maxSize < cache.currentSize.value then none else some cache
  | fuel + 1, cache =>
      if cache.maxSize < cache.currentSize.value then evictRounds fuel cache.evict
      else some cache

/-- The loop.  A round shortens the list or, when it is empty, changes nothing,
so that a loop longer than the list never ends. -/
def evictWhile (cache : FileCache) : Option FileCache :=
  evictRounds cache.lruList.length cache

/-- A hit: the path moves to the front. -/
def refresh (cache : FileCache) (path : Bytes) (file : CachedFile) : FileCache :=
  { cache with
    lruList := ⟨cache.nextNode, path⟩ :: eraseNode cache.lruList file.lruIt
    files := Function.update cache.files path (some { file with lruIt := cache.nextNode })
    nextNode := cache.nextNode + 1
    hits := cache.hits + 1 }

/-- A stale hit: the old entry is removed. -/
def forget (cache : FileCache) (path : Bytes) (file : CachedFile) : FileCache :=
  { cache with
    currentSize := cache.currentSize.sub file.fileSize
    lruList := eraseNode cache.lruList file.lruIt
    files := Function.update cache.files path none
    misses := cache.misses + 1 }

/-- A loaded file becomes the first entry. -/
def insert (cache : FileCache) (path : Bytes) (file : LoadedFile) : FileCache :=
  { cache with
    lruList := ⟨cache.nextNode, path⟩ :: cache.lruList
    files := Function.update cache.files path (some { file with lruIt := cache.nextNode })
    currentSize := cache.currentSize.add file.fileSize
    nextNode := cache.nextNode + 1 }

section Fields

variable (cache : FileCache) (path : Bytes) (file : CachedFile) (loaded : LoadedFile)

@[simp] theorem files_forget :
    (cache.forget path file).files = Function.update cache.files path none := rfl

@[simp] theorem files_refresh :
    (cache.refresh path file).files =
      Function.update cache.files path (some { file with lruIt := cache.nextNode }) := rfl

@[simp] theorem files_insert :
    (cache.insert path loaded).files =
      Function.update cache.files path (some { loaded with lruIt := cache.nextNode }) := rfl

@[simp] theorem paths_insert : (cache.insert path loaded).paths = path :: cache.paths := rfl

@[simp] theorem maxSize_forget : (cache.forget path file).maxSize = cache.maxSize := rfl

@[simp] theorem maxSize_refresh : (cache.refresh path file).maxSize = cache.maxSize := rfl

@[simp] theorem maxSize_insert : (cache.insert path loaded).maxSize = cache.maxSize := rfl

end Fields

/-- The first half of `get` on anything but a fresh hit. -/
def beforeLoad (cache : FileCache) (path : Bytes) : FileCache :=
  match cache.files path with
  | some file => cache.forget path file
  | none => { cache with misses := cache.misses + 1 }

/-- The second half of `get`: load the file, enter it and evict. -/
def loadInto (cache : FileCache) (path : Bytes) (calls : FileCalls) :
    Option (FileCache × CacheAnswer) :=
  match loadFile path calls with
  | .failed => some (cache, .missing)
  | .throws => some (cache, .throws)
  | .loaded file =>
      (cache.insert path file).evictWhile.map fun cache =>
        (cache, .found file.content file.mimeType)

/-- `get`; `none` when its eviction loop never ends. -/
def get (cache : FileCache) (path : Bytes) (calls : FileCalls) :
    Option (FileCache × CacheAnswer) :=
  match cache.files path with
  | some file =>
      if isFileModified calls file.lastModified then (cache.beforeLoad path).loadInto path calls
      else some (cache.refresh path file, .found file.content file.mimeType)
  | none => (cache.beforeLoad path).loadInto path calls

/-- `set_max_size`; `none` when its eviction loop never ends. -/
def setMaxSize (cache : FileCache) (maxSize : ℕ) : Option FileCache :=
  evictWhile { cache with maxSize := maxSize }

/-- The calls of a run. -/
inductive Op
  | get (path : Bytes) (calls : FileCalls)
  | setMaxSize (maxSize : ℕ)

/-- Runs of one cache: its calls, in the order in which they take the lock. -/
def system : Transition.System FileCache Op where
  init cache := ∃ maxSize, cache = new maxSize
  step cache
    | .get path calls => (cache.get path calls).map Prod.fst
    | .setMaxSize maxSize => cache.setMaxSize maxSize

end FileCache

end Sok
