import Sok.Cache.Representation
import Sok.Foundation.Locked

/-!
# The cache in use by many threads

The methods of `FileCache` statement by statement: `get` and `set_max_size` under the
exclusive lock, the two counters under the shared one.  In the middle of a body the
list, the map and the counters do not agree; `rest` is what is still to come from a
point of a body on, and every statement leaves it as it is.  So a whole body is
`get` or `setMaxSize`, and the cache in use is linearizable: in any interleaving its
users see what they would see if every call were one step.

## Strategy

`rest` turns a point of a body into a function, and the proof is one equation for each
statement: what is still to come before the statement is what is still to come behind it,
with the system call's result put in.  By induction on a run of the body this makes the
whole body equal to the operation (`apply_of_completes`), for any results that its system
calls may have.  That is all that the library asks of an object under a lock; the
interleavings are dealt with there.
-/

namespace Sok.FileCache

/-! ## The statements -/

inductive Method
  | get (path : Bytes)
  | setMaxSize (maxSize : ℕ)
  | getCacheHits
  | getCacheMisses
  deriving DecidableEq

/-- What a method returns. -/
inductive Answer
  | page (answer : CacheAnswer)
  | nothing
  | count (n : ℕ)
  deriving DecidableEq

/-- The test of `while (current_size_ > max_size_)`, and the statements of `evict`. -/
inductive LoopPoint
  | test
  | back
  | shrinkBack (lruFile : Bytes)
  | eraseBack (lruFile : Bytes)
  | popBack
  deriving DecidableEq

/-- The statement that comes next. -/
inductive Point
  | find
  | check
  /-- The four statements on an entry that is out of date; `countMiss` is also the one
  where there is no entry. -/
  | shrink
  | unlink
  | drop
  | countMiss
  /-- Those on an entry that is up to date. -/
  | erase
  | pushFront
  | setIterator
  | countHit
  | copy
  /-- `load_file`. -/
  | opening
  | sizing
  | resize (fileSize : ℕ)
  | read (fileSize : ℕ)
  | stamp (fileSize : ℕ) (content : Bytes)
  /-- The new entry. -/
  | pushNew (file : LoadedFile)
  | setNewIterator (file : LoadedFile)
  | enter (file : CachedFile)
  | grow (file : CachedFile)
  | assignMaxSize
  /-- The loop, with what is returned behind it. -/
  | loop (at' : LoopPoint) (answer : Answer)
  | readHits
  | readMisses
  deriving DecidableEq

/-- The body goes on. -/
def goOn (cache : FileCache) (at' : Point) : Option (FileCache × (Point ⊕ Answer)) :=
  some (cache, .inl at')

/-- The body ends. -/
def ends (cache : FileCache) (answer : Answer) : Option (FileCache × (Point ⊕ Answer)) :=
  some (cache, .inr answer)

/-- What `get` returns for a file. -/
def pageOf (file : LoadedFile) : Answer :=
  .page (.found file.content file.mimeType)

/-- `while (current_size_ > max_size_) evict()`. -/
def loopStatement (cache : FileCache) (at' : LoopPoint) (answer : Answer) :
    Option (FileCache × (Point ⊕ Answer)) :=
  match at' with
  | .test =>
      if cache.maxSize < cache.currentSize.value then cache.goOn (.loop .back answer)
      else cache.ends answer
  | .back =>
      match cache.lruList.getLast? with
      | none => cache.goOn (.loop .test answer)
      | some node =>
          if (cache.files node.path).isSome then cache.goOn (.loop (.shrinkBack node.path) answer)
          else cache.goOn (.loop .popBack answer)
  | .shrinkBack lruFile =>
      (cache.files lruFile).bind fun file =>
        { cache with currentSize := cache.currentSize.sub file.fileSize }.goOn
          (.loop (.eraseBack lruFile) answer)
  | .eraseBack lruFile =>
      { cache with files := Function.update cache.files lruFile none }.goOn (.loop .popBack answer)
  | .popBack => { cache with lruList := cache.lruList.dropLast }.goOn (.loop .test answer)

/-- `get`, where `it` is the entry of the path. -/
def getStatement (path : Bytes) (cache : FileCache) (at' : Point) (calls : FileCalls) :
    Option (FileCache × (Point ⊕ Answer)) :=
  match at' with
  | .find => if (cache.files path).isSome then cache.goOn .check else cache.goOn .countMiss
  | .check =>
      (cache.files path).bind fun file =>
        if isFileModified calls file.lastModified then cache.goOn .shrink else cache.goOn .erase
  | .shrink =>
      (cache.files path).bind fun file =>
        { cache with currentSize := cache.currentSize.sub file.fileSize }.goOn .unlink
  | .unlink =>
      (cache.files path).bind fun file =>
        { cache with lruList := eraseNode cache.lruList file.lruIt }.goOn .drop
  | .drop => { cache with files := Function.update cache.files path none }.goOn .countMiss
  | .countMiss => { cache with misses := cache.misses + 1 }.goOn .opening
  | .erase =>
      (cache.files path).bind fun file =>
        { cache with lruList := eraseNode cache.lruList file.lruIt }.goOn .pushFront
  | .pushFront =>
      { cache with
        lruList := ⟨cache.nextNode, path⟩ :: cache.lruList
        nextNode := cache.nextNode + 1 }.goOn .setIterator
  | .setIterator =>
      (cache.files path).bind fun file => cache.lruList.head?.bind fun node =>
        { cache with
          files := Function.update cache.files path (some { file with lruIt := node.id }) }.goOn
            .countHit
  | .countHit => { cache with hits := cache.hits + 1 }.goOn .copy
  | .copy => (cache.files path).bind fun file => cache.ends (pageOf file.toLoadedFile)
  | .opening => if calls.opens then cache.goOn .sizing else cache.ends (.page .missing)
  | .sizing =>
      if getFileSize calls.size = 0 then cache.ends (.page .missing)
      else cache.goOn (.resize (getFileSize calls.size))
  | .resize fileSize =>
      if calls.allocates then cache.goOn (.read fileSize) else cache.ends (.page .throws)
  | .read fileSize => cache.goOn (.stamp fileSize (readInto fileSize calls.bytes))
  | .stamp fileSize content =>
      cache.goOn (.pushNew
        ⟨content, getMimeType path, getFileLastWriteTime calls.loadedMtime, fileSize⟩)
  | .pushNew file =>
      { cache with
        lruList := ⟨cache.nextNode, path⟩ :: cache.lruList
        nextNode := cache.nextNode + 1 }.goOn (.setNewIterator file)
  | .setNewIterator file =>
      cache.lruList.head?.bind fun node => cache.goOn (.enter { file with lruIt := node.id })
  | .enter file =>
      { cache with files := Function.update cache.files path (some file) }.goOn (.grow file)
  | .grow file =>
      { cache with currentSize := cache.currentSize.add file.fileSize }.goOn
        (.loop .test (pageOf file.toLoadedFile))
  | .loop at' answer => cache.loopStatement at' answer
  | .assignMaxSize | .readHits | .readMisses => none

/-- One statement of a method; `calls` is what the system calls would return now. -/
def statement (method : Method) (cache : FileCache) (at' : Point) (calls : FileCalls) :
    Option (FileCache × (Point ⊕ Answer)) :=
  match method with
  | .get path => getStatement path cache at' calls
  | .setMaxSize maxSize =>
      match at' with
      | .assignMaxSize => { cache with maxSize := maxSize }.goOn (.loop .test .nothing)
      | .loop at' answer => cache.loopStatement at' answer
      | _ => none
  | .getCacheHits =>
      match at' with
      | .readHits => cache.ends (.count cache.hits)
      | _ => none
  | .getCacheMisses =>
      match at' with
      | .readMisses => cache.ends (.count cache.misses)
      | _ => none

/-- `std::unique_lock` or `std::shared_lock`. -/
def Method.mode : Method → Locked.Mode
  | .get _ | .setMaxSize _ => .exclusive
  | .getCacheHits | .getCacheMisses => .shared

/-- The first statement. -/
def Method.enter : Method → Point
  | .get _ => .find
  | .setMaxSize _ => .assignMaxSize
  | .getCacheHits => .readHits
  | .getCacheMisses => .readMisses

/-- The cache as an object under `mutex_`. -/
def object : Locked.Object FileCache Method Point FileCalls Answer where
  mode := Method.mode
  enter := Method.enter
  step := statement
  step_of_shared := by
    intro method cache at' calls next hmode hstep
    cases method with
    | get path => exact absurd hmode (by simp [Method.mode])
    | setMaxSize maxSize => exact absurd hmode (by simp [Method.mode])
    | getCacheHits | getCacheMisses =>
        cases at' <;> cases hstep
        rfl

/-! ## What the system calls return -/

/-- What the system calls on a path may return, call by call. -/
structure Answers where
  checkedMtime : Option ℤ → Prop
  opens : Bool → Prop
  size : Option ℕ → Prop
  allocates : Bool → Prop
  bytes : Bytes → Prop
  loadedMtime : Option ℤ → Prop

structure Answers.Allow (answers : Answers) (calls : FileCalls) : Prop where
  checkedMtime : answers.checkedMtime calls.checkedMtime
  opens : answers.opens calls.opens
  size : answers.size calls.size
  allocates : answers.allocates calls.allocates
  bytes : answers.bytes calls.bytes
  loadedMtime : answers.loadedMtime calls.loadedMtime

/-- The counters and the limit need no system call. -/
def Allowed (answers : Bytes → Answers) : Method → FileCalls → Prop
  | .get path, calls => (answers path).Allow calls
  | .setMaxSize _, _ | .getCacheHits, _ | .getCacheMisses, _ => True

/-! ## What a whole body does -/

/-- The methods as single steps. -/
def apply (method : Method) (cache : FileCache) (calls : FileCalls) : Option (FileCache × Answer) :=
  match method with
  | .get path => (cache.get path calls).map (Prod.map id .page)
  | .setMaxSize maxSize => (cache.setMaxSize maxSize).map fun cache => (cache, .nothing)
  | .getCacheHits => some (cache, .count cache.hits)
  | .getCacheMisses => some (cache, .count cache.misses)

/-- The loop, and then the return. -/
def evictThen (cache : FileCache) (answer : Answer) : Option (FileCache × Answer) :=
  cache.evictWhile.map fun cache => (cache, answer)

/-- What is still to come of the loop. -/
def restOfLoop (cache : FileCache) (at' : LoopPoint) (answer : Answer) :
    Option (FileCache × Answer) :=
  match at' with
  | .test => cache.evictThen answer
  | .back => cache.evict.evictThen answer
  | .shrinkBack lruFile =>
      (cache.files lruFile).bind fun file =>
        { cache with
          currentSize := cache.currentSize.sub file.fileSize
          files := Function.update cache.files lruFile none
          lruList := cache.lruList.dropLast }.evictThen answer
  | .eraseBack lruFile =>
      { cache with
        files := Function.update cache.files lruFile none
        lruList := cache.lruList.dropLast }.evictThen answer
  | .popBack => { cache with lruList := cache.lruList.dropLast }.evictThen answer

/-- What is still to come of a `get`. -/
def restOfGet (path : Bytes) (cache : FileCache) (at' : Point) (calls : FileCalls) :
    Option (FileCache × Answer) :=
  match at' with
  | .find | .check => (cache.get path calls).map (Prod.map id .page)
  | .shrink =>
      (cache.files path).bind fun file =>
        ((cache.forget path file).loadInto path calls).map (Prod.map id .page)
  | .unlink =>
      (cache.files path).bind fun file =>
        ({ cache with
          lruList := eraseNode cache.lruList file.lruIt
          files := Function.update cache.files path none
          misses := cache.misses + 1 }.loadInto path calls).map (Prod.map id .page)
  | .drop =>
      ({ cache with
        files := Function.update cache.files path none
        misses := cache.misses + 1 }.loadInto path calls).map (Prod.map id .page)
  | .countMiss =>
      ({ cache with misses := cache.misses + 1 }.loadInto path calls).map (Prod.map id .page)
  | .erase =>
      (cache.files path).map fun file => (cache.refresh path file, pageOf file.toLoadedFile)
  | .pushFront =>
      (cache.files path).map fun file =>
        ({ cache with
            lruList := ⟨cache.nextNode, path⟩ :: cache.lruList
            files := Function.update cache.files path (some { file with lruIt := cache.nextNode })
            nextNode := cache.nextNode + 1
            hits := cache.hits + 1 }, pageOf file.toLoadedFile)
  | .setIterator =>
      (cache.files path).bind fun file => cache.lruList.head?.map fun node =>
        ({ cache with
            files := Function.update cache.files path (some { file with lruIt := node.id })
            hits := cache.hits + 1 }, pageOf file.toLoadedFile)
  | .countHit =>
      (cache.files path).map fun file =>
        ({ cache with hits := cache.hits + 1 }, pageOf file.toLoadedFile)
  | .copy => (cache.files path).map fun file => (cache, pageOf file.toLoadedFile)
  | .opening => (cache.loadInto path calls).map (Prod.map id .page)
  | .sizing => (cache.loadInto path { calls with opens := true }).map (Prod.map id .page)
  | .resize fileSize =>
      if calls.allocates then
        (cache.insert path ⟨readInto fileSize calls.bytes, getMimeType path,
          getFileLastWriteTime calls.loadedMtime, fileSize⟩).evictThen
            (.page (.found (readInto fileSize calls.bytes) (getMimeType path)))
      else some (cache, .page .throws)
  | .read fileSize =>
      (cache.insert path ⟨readInto fileSize calls.bytes, getMimeType path,
        getFileLastWriteTime calls.loadedMtime, fileSize⟩).evictThen
          (.page (.found (readInto fileSize calls.bytes) (getMimeType path)))
  | .stamp fileSize content =>
      (cache.insert path ⟨content, getMimeType path, getFileLastWriteTime calls.loadedMtime,
        fileSize⟩).evictThen (.page (.found content (getMimeType path)))
  | .pushNew file => (cache.insert path file).evictThen (pageOf file)
  | .setNewIterator file =>
      cache.lruList.head?.bind fun node =>
        { cache with
          files := Function.update cache.files path (some { file with lruIt := node.id })
          currentSize := cache.currentSize.add file.fileSize }.evictThen (pageOf file)
  | .enter file =>
      { cache with
        files := Function.update cache.files path (some file)
        currentSize := cache.currentSize.add file.fileSize }.evictThen (pageOf file.toLoadedFile)
  | .grow file =>
      { cache with currentSize := cache.currentSize.add file.fileSize }.evictThen
        (pageOf file.toLoadedFile)
  | .loop at' answer => cache.restOfLoop at' answer
  | .assignMaxSize | .readHits | .readMisses => none

/-- What is still to come of a body. -/
def rest (method : Method) (cache : FileCache) (at' : Point) (calls : FileCalls) :
    Option (FileCache × Answer) :=
  match method with
  | .get path => restOfGet path cache at' calls
  | .setMaxSize maxSize =>
      match at' with
      | .assignMaxSize => (cache.setMaxSize maxSize).map fun cache => (cache, .nothing)
      | .loop at' answer => cache.restOfLoop at' answer
      | _ => none
  | .getCacheHits =>
      match at' with
      | .readHits => some (cache, .count cache.hits)
      | _ => none
  | .getCacheMisses =>
      match at' with
      | .readMisses => some (cache, .count cache.misses)
      | _ => none

theorem rest_enter (method : Method) (cache : FileCache) (calls : FileCalls) :
    rest method cache method.enter calls = apply method cache calls := by
  cases method <;> rfl

/-! ## Every statement leaves it as it is -/

section Rest

variable {cache next : FileCache} {at' : Point} {calls : FileCalls} {after : Point ⊕ Answer}

theorem evictWhile_of_over (hover : cache.maxSize < cache.currentSize.value) :
    cache.evictWhile = cache.evict.evictWhile := by
  rcases List.eq_nil_or_concat cache.lruList with hnil | ⟨front, node, hlist⟩
  · have hevict : cache.evict = cache := by
      unfold FileCache.evict
      rw [hnil]
      rfl
    rw [hevict]
  · have hlength : cache.lruList.length = cache.evict.lruList.length + 1 := by
      unfold FileCache.evict
      rw [hlist, List.concat_eq_append, List.getLast?_concat]
      dsimp only
      cases cache.files node.path <;> simp
    unfold FileCache.evictWhile
    rw [hlength, evictRounds, if_pos hover]

theorem loopStatement_rest {at' : LoopPoint} {answer : Answer}
    (h : cache.loopStatement at' answer = some (next, after)) :
    (∃ later, after = .inl (.loop later answer) ∧
      cache.restOfLoop at' answer = next.restOfLoop later answer) ∨
    after = .inr answer ∧ cache.restOfLoop at' answer = some (next, answer) := by
  cases at' with
  | test =>
      simp only [loopStatement] at h
      split at h
      case isTrue hover =>
        cases h
        refine Or.inl ⟨.back, rfl, ?_⟩
        simp only [restOfLoop, evictThen, evictWhile_of_over hover]
      case isFalse hfits =>
        cases h
        refine Or.inr ⟨rfl, ?_⟩
        simp only [restOfLoop, evictThen, evictWhile, evictRounds_of_le _ hfits, Option.map_some]
  | back =>
      simp only [loopStatement] at h
      split at h
      case h_1 hnone =>
        cases h
        refine Or.inl ⟨.test, rfl, ?_⟩
        simp only [restOfLoop, evict, hnone]
      case h_2 node hlast =>
        cases hfile : cache.files node.path with
        | some file =>
            rw [hfile] at h
            cases h
            refine Or.inl ⟨.shrinkBack node.path, rfl, ?_⟩
            simp only [restOfLoop, evict, hlast, hfile, Option.bind_some]
        | none =>
            rw [hfile] at h
            cases h
            refine Or.inl ⟨.popBack, rfl, ?_⟩
            simp only [restOfLoop, evict, hlast, hfile]
  | shrinkBack lruFile =>
      obtain ⟨file, hfile, hnext⟩ := Option.bind_eq_some_iff.mp h
      cases hnext
      refine Or.inl ⟨.eraseBack lruFile, rfl, ?_⟩
      simp only [restOfLoop, hfile, Option.bind_some]
  | eraseBack lruFile =>
      cases h
      exact Or.inl ⟨.popBack, rfl, rfl⟩
  | popBack =>
      cases h
      exact Or.inl ⟨.test, rfl, rfl⟩

/-- What is still to come behind a statement. -/
def behind (path : Bytes) (next : FileCache) (after : Point ⊕ Answer) (later : FileCalls) :
    Option (FileCache × Answer) :=
  after.elim (fun at' => restOfGet path next at' later) fun answer => some (next, answer)

theorem get_of_none {path : Bytes} (hnone : cache.files path = none) :
    cache.get path calls = { cache with misses := cache.misses + 1 }.loadInto path calls := by
  simp only [get, beforeLoad, hnone]

theorem findStatement_rest {path : Bytes} {given : FileCalls} (later : FileCalls)
    (h : getStatement path cache .find given = some (next, after)) :
    restOfGet path cache .find later = behind path next after later := by
  cases hfile : cache.files path with
  | some file =>
      rw [getStatement, hfile] at h
      cases h
      rfl
  | none =>
      rw [getStatement, hfile] at h
      cases h
      simp only [restOfGet, behind, Sum.elim_inl, get_of_none hfile]

theorem checkStatement_rest {path : Bytes} {given : FileCalls} (later : FileCalls)
    (h : getStatement path cache .check given = some (next, after)) :
    restOfGet path cache .check { later with checkedMtime := given.checkedMtime } =
      behind path next after later := by
  obtain ⟨file, hfile, hnext⟩ := Option.bind_eq_some_iff.mp h
  have hmodified : isFileModified { later with checkedMtime := given.checkedMtime }
      file.lastModified = isFileModified given file.lastModified := rfl
  cases hstale : isFileModified given file.lastModified with
  | true =>
      rw [hstale] at hnext
      cases hnext
      simp only [restOfGet, behind, Sum.elim_inl, get, beforeLoad, hfile, hmodified, hstale,
        if_true, Option.bind_some]
      rfl
  | false =>
      rw [hstale] at hnext
      cases hnext
      simp only [restOfGet, behind, Sum.elim_inl, get, hfile, hmodified, hstale, Option.map_some]
      rfl

theorem openingStatement_rest {path : Bytes} {given : FileCalls} (later : FileCalls)
    (h : getStatement path cache .opening given = some (next, after)) :
    restOfGet path cache .opening { later with opens := given.opens } =
      behind path next after later := by
  cases hopens : given.opens with
  | true =>
      rw [getStatement, hopens] at h
      cases h
      rfl
  | false =>
      rw [getStatement, hopens] at h
      cases h
      rfl

theorem sizingStatement_rest {path : Bytes} {given : FileCalls} (later : FileCalls)
    (h : getStatement path cache .sizing given = some (next, after)) :
    restOfGet path cache .sizing { later with size := given.size } =
      behind path next after later := by
  simp only [getStatement] at h
  split at h
  case isTrue hzero =>
    cases h
    simp only [restOfGet, behind, Sum.elim_inr, loadInto, loadFile, hzero, if_true]
    rfl
  case isFalse hpos =>
    cases h
    simp only [restOfGet, behind, Sum.elim_inl, loadInto, loadFile, if_neg hpos]
    cases later.allocates with
    | true =>
        simp only [Bool.true_eq_false, if_false, if_true, Option.map_map]
        rfl
    | false => rfl

theorem resizeStatement_rest {path : Bytes} {given : FileCalls} {fileSize : ℕ} (later : FileCalls)
    (h : getStatement path cache (.resize fileSize) given = some (next, after)) :
    restOfGet path cache (.resize fileSize) { later with allocates := given.allocates } =
      behind path next after later := by
  cases hallocates : given.allocates with
  | true =>
      rw [getStatement, hallocates] at h
      cases h
      rfl
  | false =>
      rw [getStatement, hallocates] at h
      cases h
      rfl

theorem setIteratorStatement_rest {path : Bytes} {given : FileCalls} (later : FileCalls)
    (h : getStatement path cache .setIterator given = some (next, after)) :
    restOfGet path cache .setIterator later = behind path next after later := by
  obtain ⟨file, hfile, hrest⟩ := Option.bind_eq_some_iff.mp h
  obtain ⟨node, hnode, hnext⟩ := Option.bind_eq_some_iff.mp hrest
  cases hnext
  simp only [restOfGet, behind, Sum.elim_inl, hfile, hnode, Option.bind_some, Option.map_some,
    Function.update_self]

/-- Every statement of `get`: what its system call has returned is put together with what the later
ones return. -/
theorem getStatement_rest {path : Bytes} {answers : Answers} {given later : FileCalls}
    (hgiven : answers.Allow given) (hlater : answers.Allow later)
    (h : getStatement path cache at' given = some (next, after)) :
    ∃ all, answers.Allow all ∧ restOfGet path cache at' all = behind path next after later := by
  cases at' with
  | find => exact ⟨later, hlater, findStatement_rest later h⟩
  | check =>
      exact ⟨{ later with checkedMtime := given.checkedMtime },
        { hlater with checkedMtime := hgiven.checkedMtime }, checkStatement_rest later h⟩
  | shrink | unlink | erase | copy =>
      obtain ⟨file, hfile, hnext⟩ := Option.bind_eq_some_iff.mp h
      cases hnext
      refine ⟨later, hlater, ?_⟩
      simp only [restOfGet, behind, Sum.elim_inl, Sum.elim_inr, hfile, Option.bind_some,
        Option.map_some, refresh, forget]
  | pushFront | countHit =>
      cases h
      refine ⟨later, hlater, ?_⟩
      cases hfile : cache.files path with
      | some file => simp [restOfGet, behind, hfile]
      | none => simp [restOfGet, behind, hfile]
  | setIterator => exact ⟨later, hlater, setIteratorStatement_rest later h⟩
  | opening =>
      exact ⟨{ later with opens := given.opens }, { hlater with opens := hgiven.opens },
        openingStatement_rest later h⟩
  | sizing =>
      exact ⟨{ later with size := given.size }, { hlater with size := hgiven.size },
        sizingStatement_rest later h⟩
  | resize fileSize =>
      exact ⟨{ later with allocates := given.allocates }, { hlater with allocates := hgiven.allocates },
        resizeStatement_rest later h⟩
  | read fileSize =>
      cases h
      exact ⟨{ later with bytes := given.bytes }, { hlater with bytes := hgiven.bytes }, rfl⟩
  | stamp fileSize content =>
      cases h
      exact ⟨{ later with loadedMtime := given.loadedMtime },
        { hlater with loadedMtime := hgiven.loadedMtime }, rfl⟩
  | setNewIterator file =>
      obtain ⟨node, hnode, hnext⟩ := Option.bind_eq_some_iff.mp h
      cases hnext
      refine ⟨later, hlater, ?_⟩
      simp only [restOfGet, behind, Sum.elim_inl, hnode, Option.bind_some]
  | drop | countMiss | pushNew _ | enter _ | grow _ =>
      cases h
      exact ⟨later, hlater, rfl⟩
  | assignMaxSize | readHits | readMisses => exact absurd h (by simp [getStatement])
  | loop at' answer =>
      refine ⟨later, hlater, ?_⟩
      rcases loopStatement_rest h with ⟨at'', rfl, hrest⟩ | ⟨rfl, hrest⟩
      · exact hrest
      · exact hrest

theorem statement_rest {answers : Bytes → Answers} {method : Method} {given later : FileCalls}
    (hgiven : Allowed answers method given) (hlater : Allowed answers method later)
    (h : statement method cache at' given = some (next, after)) :
    ∃ all, Allowed answers method all ∧ rest method cache at' all =
      after.elim (fun at'' => rest method next at'' later) fun answer => some (next, answer) := by
  cases method with
  | get path => exact getStatement_rest hgiven hlater h
  | setMaxSize maxSize =>
      refine ⟨later, hlater, ?_⟩
      cases at' with
      | assignMaxSize =>
          cases h
          rfl
      | loop at' answer =>
          rcases loopStatement_rest h with ⟨at'', rfl, hrest⟩ | ⟨rfl, hrest⟩
          · exact hrest
          · exact hrest
      | _ => exact absurd h (by simp [statement])
  | getCacheHits =>
      refine ⟨later, hlater, ?_⟩
      cases at' with
      | readHits =>
          cases h
          rfl
      | _ => exact absurd h (by simp [statement])
  | getCacheMisses =>
      refine ⟨later, hlater, ?_⟩
      cases at' with
      | readMisses =>
          cases h
          rfl
      | _ => exact absurd h (by simp [statement])

end Rest

/-- A body that runs alone is the method in one step, given what its system calls returned. -/
theorem apply_of_completes {answers : Bytes → Answers} {method : Method} {cache next : FileCache}
    {answer : Answer} (h : object.Completes (Allowed answers) method cache next answer) :
    ∃ calls, Allowed answers method calls ∧ apply method cache calls = some (next, answer) := by
  obtain ⟨calls, hcalls, heq⟩ := h.rest_eq
    (fun _ _ _ _ _ hgiven hstep _ hlater => statement_rest hgiven hlater hstep)
    fun _ _ _ _ _ hgiven hlast => statement_rest hgiven hgiven hlast
  exact ⟨calls, hcalls, (rest_enter method cache calls).symm.trans heq⟩

/-! ## All threads -/

/-- A cache that has just been made. -/
def IsNew (cache : FileCache) : Prop := ∃ maxSize, cache = new maxSize

section Threads

variable {thread : Type*} [DecidableEq thread]

/-- A new cache that no thread uses. -/
def unused (maxSize : ℕ) : Locked.Concurrent thread FileCache Method Point Answer where
  state := new maxSize
  phase _ := .idle
  writer := none
  readers := ∅

/-- In one step each, the methods are the operations of the cache. -/
theorem reachable_of_apply {method : Method} {cache next : FileCache} {calls : FileCalls}
    {answer : Answer} (hreachable : system.Reachable Transition.anyStep cache)
    (h : apply method cache calls = some (next, answer)) :
    system.Reachable Transition.anyStep next := by
  cases method with
  | get path =>
      obtain ⟨⟨after, page⟩, hget, heq⟩ := Option.map_eq_some_iff.mp h
      cases heq
      have hstep : system.step cache (.get path calls) = some after := by
        simp only [system, hget, Option.map_some]
      exact hreachable.step trivial hstep
  | setMaxSize maxSize =>
      obtain ⟨after, hset, heq⟩ := Option.map_eq_some_iff.mp h
      cases heq
      have hstep : system.step cache (.setMaxSize maxSize) = some next := hset
      exact hreachable.step trivial hstep
  | getCacheHits | getCacheMisses =>
      cases h
      exact hreachable

/-- The cache with every call in one step is the cache in one run of its operations. -/
theorem reachable_of_atomic {a : Locked.Atomic thread FileCache Method Answer}
    {guard : Locked.Atomic thread FileCache Method Answer →
      Locked.Moment thread Method Answer FileCalls → Prop}
    (h : (Locked.atomic apply IsNew).Reachable guard a) :
    system.Reachable Transition.anyStep a.state := by
  refine @Transition.System.Reachable.invariant _ _ (Locked.atomic apply IsNew) _
    (fun a => system.Reachable Transition.anyStep a.state) ?_ ?_ a h
  · rintro a ⟨hnew, -⟩
    exact .initial hnew
  · intro a moment next _ hstep hreachable
    cases moment with
    | call p method =>
        simp only [Locked.atomic] at hstep
        split at hstep
        · cases hstep
          exact hreachable
        · exact absurd hstep (by simp)
    | effect p calls =>
        simp only [Locked.atomic] at hstep
        split at hstep
        · obtain ⟨⟨cache, answer⟩, happly, heq⟩ := Option.map_eq_some_iff.mp hstep
          cases heq
          exact reachable_of_apply hreachable happly
        · exact absurd hstep (by simp)
    | «return» p answer =>
        simp only [Locked.atomic] at hstep
        split at hstep
        · split at hstep
          · cases hstep
            exact hreachable
          · exact absurd hstep (by simp)
        · exact absurd hstep (by simp)

/-- **The cache is linearizable**: for any number of threads, any interleaving of their statements and
whatever the system calls return, there is a run in which every call takes effect at one moment
between its call and its return, given what system calls on its path have returned, with the same
calls and the same values returned in the same order.  While no thread holds the exclusive lock
the cache is as it is in that run, which is a run of the operations one after another. -/
theorem threads_linearizable (maxSize : ℕ) (answers : Bytes → Answers)
    {actions : List (Locked.Action thread Method FileCalls Answer)}
    {final : Locked.Concurrent thread FileCache Method Point Answer}
    (h : (Locked.concurrent object IsNew).Run (Locked.Given (Allowed answers)) (unused maxSize)
      actions final) :
    ∃ moments a,
      (Locked.atomic apply IsNew).Run (Locked.GivenWhole (Allowed answers))
          ⟨new maxSize, fun _ => .idle⟩ moments a ∧
        moments.filterMap Locked.Moment.event = actions.filterMap Locked.Action.event ∧
        system.Reachable Transition.anyStep a.state ∧
        (final.writer = none → final.state = a.state) := by
  have hinit : (Locked.concurrent object IsNew).init (unused maxSize : Locked.Concurrent thread ..) :=
    ⟨⟨maxSize, rfl⟩, fun _ => rfl, rfl, rfl⟩
  obtain ⟨moments, a, hrun, hevents, hrelated⟩ :=
    Locked.linearizable (fun _ _ _ _ hbody => apply_of_completes hbody) hinit h
  have hstart : (Locked.atomic apply IsNew).init
      (⟨new maxSize, fun _ => .idle⟩ : Locked.Atomic thread ..) := ⟨⟨maxSize, rfl⟩, fun _ => rfl⟩
  have hreachable : system.Reachable Transition.anyStep a.state :=
    reachable_of_atomic ((Transition.System.Reachable.initial hstart).exec hrun.permits hrun.exec)
  exact ⟨moments, a, hrun, hevents, hreachable, hrelated.state_eq⟩

end Threads

/-- What the system calls return while a file holds the page. -/
def pageAnswers : Answers where
  checkedMtime := (· = some 1)
  opens := (· = true)
  size := (· = some 4)
  allocates := (· = true)
  bytes := (· = ascii "page")
  loadedMtime := (· = some 1)

/-- One thread gets a page; another has asked for the misses before the first one had the lock, and
reads them when it is given back. -/
def getAndCount : List (Locked.Action Bool Method FileCalls Answer) :=
  [.call false (.get (ascii "a.js")), .call true .getCacheMisses, .lock false] ++
    List.replicate 12 (.statement false (callsOn (ascii "page") 1)) ++
    [.unlock false, .lock true,
      .return false (.page (.found (ascii "page") (getMimeType (ascii "a.js")))),
      .statement true (callsOn (ascii "page") 1), .unlock true, .return true (.count 1)]

theorem given_getAndCount : ∀ action ∈ getAndCount,
    ∀ state : Locked.Concurrent Bool FileCache Method Point Answer,
      Locked.Given (Allowed fun _ => pageAnswers) state action := by
  have hlength : (ascii "page").length = 4 := by decide
  have hallowed : ∀ method, Allowed (fun _ => pageAnswers) method (callsOn (ascii "page") 1) := by
    intro method
    cases method with
    | get path => exact ⟨rfl, rfl, congrArg some hlength, rfl, rfl, rfl⟩
    | setMaxSize _ | getCacheHits | getCacheMisses => trivial
  intro action haction state
  cases action with
  | statement p given =>
      have hgiven : p = false ∧ given = callsOn (ascii "page") 1 ∨
          p = true ∧ given = callsOn (ascii "page") 1 := by
        simpa [getAndCount] using haction
      intro method _ _
      rw [hgiven.elim And.right And.right]
      exact hallowed method
  | call _ _ | lock _ | unlock _ | «return» _ _ => trivial

theorem threads_linearizable_two : ∃ moments a,
    (Locked.atomic apply IsNew).Run (Locked.GivenWhole (Allowed fun _ => pageAnswers))
        ⟨new 100, fun _ => .idle⟩ moments a ∧
      moments.filterMap Locked.Moment.event =
        [.called false (.get (ascii "a.js")), .called true .getCacheMisses,
          .returned false (.page (.found (ascii "page") (getMimeType (ascii "a.js")))),
          .returned true (.count 1)] := by
  have hrun : ((Locked.concurrent object IsNew).exec (unused 100) getAndCount).isSome := by
    decide +kernel
  obtain ⟨final, hexec⟩ := Option.isSome_iff_exists.mp hrun
  obtain ⟨moments, a, hmoments, hevents, -, -⟩ := threads_linearizable 100 (fun _ => pageAnswers)
    ⟨Transition.System.permits_of_forall given_getAndCount _, hexec⟩
  exact ⟨moments, a, hmoments, hevents⟩

end Sok.FileCache
