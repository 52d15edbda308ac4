import Sok.Cache.Transparency

/-!
# Writes that race with a load

A `get` is broken up at its system calls: the `stat` of `is_file_modified`, and in
`load_file` the open, the `stat` for the size, the read and the `stat` for the time.
It holds the lock all along, so only one is under way, but the files may be written
between any two of its steps.

The time is taken after the bytes.  A write that lands between the two leaves an
entry with the old bytes and the new time, which no later `get` finds to be
outdated; a write that changes the length between the size and the read leaves
one with a part of the bytes.  `SparesLoad` is the condition that neither happens.

## Strategy

The invariant has one part for the entries, which is `UpToDate` again, and one for the call
under way: at each of its stages, what it has read so far agrees with the file as it is now
(`StageOk`).  A write spares the load when it changes nothing that the stage has read; at
the end of the call both parts together give the first part for the new entry.

For the answers it is enough to run a call without a disturbance from where the world is.
It makes its system calls one after the other on the same file (`exec_opening`), and there
is only one way to its end, so whatever run ends it ends with that answer.
-/

namespace Sok.FileCache

/-! ## The steps of a call -/

/-- The system call that comes next. -/
inductive Stage
  | checking
  | opening
  | sizing
  | reading
  | stamping
  deriving DecidableEq, Repr

/-- A `get` under way, with what its system calls have returned so far. -/
structure Call where
  path : Bytes
  stage : Stage
  calls : FileCalls

/-- A cache, the files, the `get` that holds the lock, and the last answer. -/
structure Racing where
  cache : FileCache
  disk : Disk
  call : Option Call
  answer : Option CacheAnswer

inductive RacingOp
  | begin (path : Bytes)
  /-- The next system call of the `get` under way; the flag is for the allocation. -/
  | advance (allocates : Bool)
  | setMaxSize (maxSize : ℕ)
  | write (path bytes : Bytes) (mtime : ℤ)

/-- Nothing has been called yet. -/
def noCalls : FileCalls where
  checkedMtime := none
  opens := false
  size := none
  allocates := true
  bytes := []
  loadedMtime := none

namespace Racing

/-- The `get` comes to its end. -/
def finish (world : Racing) (path : Bytes) (calls : FileCalls) : Option Racing :=
  (world.cache.get path calls).map fun (cache, answer) =>
    { world with cache := cache, call := none, answer := some answer }

/-- The `get` goes on. -/
def goOn (world : Racing) (path : Bytes) (stage : Stage) (calls : FileCalls) : Option Racing :=
  some { world with call := some ⟨path, stage, calls⟩ }

/-- The next system call of a `get`, answered by the file as it is now. -/
def advance (world : Racing) (call : Call) (allocates : Bool) : Option Racing :=
  let file := world.disk call.path
  match call.stage with
  | .checking =>
      let calls := { call.calls with checkedMtime := file.map DiskFile.mtime }
      if (world.cache.files call.path).all fun entry => isFileModified calls entry.lastModified then
        world.goOn call.path .opening calls
      else world.finish call.path calls
  | .opening =>
      let calls := { call.calls with opens := file.any DiskFile.readable }
      if calls.opens then world.goOn call.path .sizing calls else world.finish call.path calls
  | .sizing =>
      let calls := { call.calls with
        size := file.map fun entry => entry.bytes.length
        allocates := allocates }
      if getFileSize calls.size = 0 ∨ allocates = false then world.finish call.path calls
      else world.goOn call.path .reading calls
  | .reading => world.goOn call.path .stamping { call.calls with bytes := file.elim [] DiskFile.bytes }
  | .stamping =>
      world.finish call.path { call.calls with loadedMtime := file.map DiskFile.mtime }

/-- An external write, which raises the time of a file that exists. -/
def write (world : Racing) (path bytes : Bytes) (mtime : ℤ) : Option Racing :=
  match world.disk path with
  | some old =>
      if old.mtime < mtime then
        some { world with
          disk := Function.update world.disk path (some ⟨bytes, mtime, old.readable⟩) }
      else none
  | none =>
      some { world with disk := Function.update world.disk path (some ⟨bytes, mtime, true⟩) }

end Racing

/-- Runs of a cache over files that are written at any time. -/
def racingSystem : Transition.System Racing RacingOp where
  init world := (∃ maxSize, world.cache = new maxSize) ∧ world.call = none
  step world
    | .begin path =>
        match world.call with
        | none =>
            -- without an entry there is nothing to check
            if (world.cache.files path).isSome then world.goOn path .checking noCalls
            else world.goOn path .opening noCalls
        | some _ => none
    | .advance allocates => world.call.bind fun call => world.advance call allocates
    | .setMaxSize maxSize =>
        match world.call with
        | none => (world.cache.setMaxSize maxSize).map fun cache => { world with cache := cache }
        | some _ => none
    | .write path bytes mtime => world.write path bytes mtime

/-- Every `get` that begins now and is not disturbed answers what the file holds. -/
def AnswersCurrent (world : Racing) : Prop :=
  world.call = none → ∀ path, ∃ steps final,
    racingSystem.exec world (.begin path :: List.replicate steps (.advance true)) = some final ∧
      final.call = none ∧ final.answer = some (world.disk.current path)

/-- **The condition.**  A write to the file that is being loaded keeps its length
between the `stat` for the size and the read, and its bytes between the read and the
`stat` for the time. -/
def SparesLoad (world : Racing) : RacingOp → Prop
  | .write path bytes _ => ∀ call ∈ world.call, call.path = path → ∀ old ∈ world.disk path,
      (call.stage = .reading → bytes.length = old.bytes.length) ∧
        (call.stage = .stamping → bytes = old.bytes)
  | _ => True

instance (world : Racing) : ∀ op, Decidable (SparesLoad world op)
  | .write path bytes _ =>
      inferInstanceAs (Decidable (∀ call ∈ world.call, call.path = path →
        ∀ old ∈ world.disk path, (call.stage = .reading → bytes.length = old.bytes.length) ∧
          (call.stage = .stamping → bytes = old.bytes)))
  | .begin _ | .advance _ | .setMaxSize _ => inferInstanceAs (Decidable True)

/-! ## The invariant -/

/-- What a `get` at the stage knows about the file as it is now. -/
def StageOk (disk : Disk) (path : Bytes) (calls : FileCalls) : Stage → Prop
  | .checking | .opening => calls.opens = false
  | .sizing => ∃ entry, disk path = some entry ∧ entry.readable = true
  | .reading => ∃ entry, disk path = some entry ∧ entry.readable = true ∧
      calls.size = some entry.bytes.length
  | .stamping => ∃ entry, disk path = some entry ∧ entry.readable = true ∧
      calls.size = some entry.bytes.length ∧ calls.bytes = entry.bytes

/-- The entries are up to date, and the `get` under way will not change that. -/
structure Undeceived (world : Racing) : Prop where
  upToDate : UpToDate ⟨world.cache, world.disk⟩
  call : ∀ call ∈ world.call, StageOk world.disk call.path call.calls call.stage

/-- The file changes, but not in what the stage knows about it. -/
theorem StageOk.of_disk {disk after : Disk} {path : Bytes} {calls : FileCalls} {stage : Stage}
    (h : StageOk disk path calls stage)
    (hdisk : ∀ entry, disk path = some entry → ∃ new, after path = some new ∧
      new.readable = entry.readable ∧
        (stage = .reading → new.bytes.length = entry.bytes.length) ∧
        (stage = .stamping → new.bytes = entry.bytes)) :
    StageOk after path calls stage := by
  cases stage with
  | checking | opening => exact h
  | sizing =>
      obtain ⟨entry, hentry, hreadable⟩ := h
      obtain ⟨new, hnew, hsame, -⟩ := hdisk entry hentry
      exact ⟨new, hnew, hsame.trans hreadable⟩
  | reading =>
      obtain ⟨entry, hentry, hreadable, hsize⟩ := h
      obtain ⟨new, hnew, hsame, hlength, -⟩ := hdisk entry hentry
      exact ⟨new, hnew, hsame.trans hreadable, by rw [hlength rfl, hsize]⟩
  | stamping =>
      obtain ⟨entry, hentry, hreadable, hsize, hbytes⟩ := h
      obtain ⟨new, hnew, hsame, -, hkept⟩ := hdisk entry hentry
      exact ⟨new, hnew, hsame.trans hreadable, by rw [hkept rfl, hsize], by rw [hkept rfl, hbytes]⟩

section

variable {world next : Racing} {path : Bytes} {calls : FileCalls}

theorem Undeceived.goOn (h : Undeceived world) {stage : Stage}
    (hnext : world.goOn path stage calls = some next)
    (hstage : StageOk world.disk path calls stage) : Undeceived next := by
  obtain rfl := Option.some.inj hnext
  refine ⟨h.upToDate, fun call hsome => ?_⟩
  obtain rfl := Option.some.inj hsome
  exact hstage

/-- At the end of a `get` a file that was loaded is the file as it is now. -/
theorem Undeceived.finish (h : Undeceived world) (hnext : world.finish path calls = some next)
    (hload : ∀ file, loadFile path calls = .loaded file → ∃ entry,
      world.disk path = some entry ∧ entry.readable = true ∧ file.content = entry.bytes ∧
        file.lastModified = entry.mtime) : Undeceived next := by
  obtain ⟨⟨cache, answer⟩, hget, rfl⟩ := Option.map_eq_some_iff.mp hnext
  exact ⟨h.upToDate.got (h.upToDate.linked.got_of_get hget) hload,
    fun _ hsome => absurd hsome (by simp)⟩

theorem not_loaded_of_not_opens (h : calls.opens = false) (file : LoadedFile) :
    loadFile path calls ≠ .loaded file := by
  intro hload
  exact absurd ((loadFile_eq_loaded hload).1.symm.trans h) (by simp)

theorem not_loaded_of_size (h : getFileSize calls.size = 0 ∨ calls.allocates = false)
    (file : LoadedFile) : loadFile path calls ≠ .loaded file := by
  intro hload
  obtain ⟨-, hallocates, hsize, hpos, -⟩ := loadFile_eq_loaded hload
  rcases h with hzero | hmemory
  · rw [hsize] at hzero
    exact absurd hzero (Nat.ne_of_gt hpos)
  · exact absurd (hallocates.symm.trans hmemory) (by simp)

theorem Undeceived.advance (h : Undeceived world) {call : Call} {allocates : Bool}
    (hcall : world.call = some call) (hnext : world.advance call allocates = some next) :
    Undeceived next := by
  have hstage := h.call call hcall
  obtain ⟨path, stage, calls⟩ := call
  unfold Racing.advance at hnext
  cases stage with
  | checking =>
      dsimp only at hnext
      split at hnext
      · exact h.goOn hnext hstage
      · exact h.finish hnext fun file hload => absurd hload (not_loaded_of_not_opens hstage file)
  | opening =>
      dsimp only at hnext
      split at hnext
      · rename_i hopens
        cases hentry : world.disk path with
        | none => exact absurd hopens (by simp [hentry])
        | some entry => exact h.goOn hnext ⟨entry, hentry, by simpa [hentry] using hopens⟩
      · rename_i hopens
        refine h.finish hnext fun file hload => absurd hload (not_loaded_of_not_opens ?_ file)
        simpa using hopens
  | sizing =>
      obtain ⟨entry, hentry, hreadable⟩ := hstage
      dsimp only at hentry hnext
      split at hnext
      · rename_i hfails
        exact h.finish hnext fun file hload => absurd hload (not_loaded_of_size hfails file)
      · exact h.goOn hnext ⟨entry, hentry, hreadable, by rw [hentry]; rfl⟩
  | reading =>
      obtain ⟨entry, hentry, hreadable, hsize⟩ := hstage
      dsimp only at hentry hsize hnext
      exact h.goOn hnext ⟨entry, hentry, hreadable, hsize, by rw [hentry]; rfl⟩
  | stamping =>
      obtain ⟨entry, hentry, hreadable, hsize, hbytes⟩ := hstage
      dsimp only at hentry hsize hbytes hnext
      refine h.finish hnext fun file hload => ?_
      obtain ⟨-, -, hfileSize, -, hcontent, -, hmtime⟩ := loadFile_eq_loaded hload
      dsimp only at hfileSize hcontent hmtime
      refine ⟨entry, hentry, hreadable, ?_, by rw [hmtime, hentry]; rfl⟩
      have hlength : entry.bytes.length = file.fileSize :=
        Option.some.inj (hsize.symm.trans hfileSize)
      rw [hcontent, hbytes, ← hlength]
      exact readInto_length entry.bytes

theorem Undeceived.write (h : Undeceived world) {bytes : Bytes} {mtime : ℤ}
    (hguard : SparesLoad world (.write path bytes mtime))
    (hnext : world.write path bytes mtime = some next) : Undeceived next := by
  unfold Racing.write at hnext
  split at hnext
  · rename_i old hold
    split at hnext
    · rename_i hraises
      obtain rfl := Option.some.inj hnext
      refine ⟨?_, fun call hcall => (h.call call hcall).of_disk fun entry hentry => ?_⟩
      · refine ⟨h.upToDate.linked, fun other file hfile => ?_⟩
        obtain ⟨entry, hentry, hreadable, hle, hsame⟩ := h.upToDate.entries other file hfile
        by_cases heq : other = path
        · subst heq
          obtain rfl : old = entry := Option.some.inj (hold.symm.trans hentry)
          -- the new time is beyond that of every entry
          refine ⟨_, Function.update_self .., hreadable, hle.trans hraises.le, fun htime => ?_⟩
          exact absurd (htime.symm.le.trans hle) (not_le.mpr hraises)
        · exact ⟨entry, (Function.update_of_ne heq ..).trans hentry, hreadable, hle, hsame⟩
      · by_cases heq : call.path = path
        · obtain ⟨hlength, hbytes⟩ := hguard call hcall heq old hold
          rw [heq] at hentry ⊢
          obtain rfl : old = entry := Option.some.inj (hold.symm.trans hentry)
          exact ⟨_, Function.update_self .., rfl, hlength, hbytes⟩
        · exact ⟨entry, (Function.update_of_ne heq ..).trans hentry, rfl, fun _ => rfl,
            fun _ => rfl⟩
    · exact absurd hnext (by simp)
  · rename_i hnone
    obtain rfl := Option.some.inj hnext
    have hother : ∀ {other : Bytes} {entry : DiskFile}, world.disk other = some entry →
        other ≠ path := by
      rintro other entry hentry rfl
      exact absurd (hnone.symm.trans hentry) (by simp)
    refine ⟨?_, fun call hcall => (h.call call hcall).of_disk fun entry hentry => ?_⟩
    · refine ⟨h.upToDate.linked, fun other file hfile => ?_⟩
      obtain ⟨entry, hentry, hrest⟩ := h.upToDate.entries other file hfile
      exact ⟨entry, (Function.update_of_ne (hother hentry) ..).trans hentry, hrest⟩
    · exact ⟨entry, (Function.update_of_ne (hother hentry) ..).trans hentry, rfl, fun _ => rfl,
        fun _ => rfl⟩

theorem Undeceived.step (h : Undeceived world) {op : RacingOp} (hguard : SparesLoad world op)
    (hstep : racingSystem.step world op = some next) : Undeceived next := by
  cases op with
  | begin path =>
      simp only [racingSystem] at hstep
      split at hstep
      · split at hstep
        · exact h.goOn hstep rfl
        · exact h.goOn hstep rfl
      · exact absurd hstep (by simp)
  | advance allocates =>
      obtain ⟨call, hcall, hnext⟩ := Option.bind_eq_some_iff.mp hstep
      exact h.advance hcall hnext
  | setMaxSize maxSize =>
      simp only [racingSystem] at hstep
      split at hstep
      · rename_i hidle
        obtain ⟨cache, hset, rfl⟩ := Option.map_eq_some_iff.mp hstep
        have hworld : worldSystem.step ⟨world.cache, world.disk⟩ (.setMaxSize maxSize) =
            some ⟨cache, world.disk⟩ := by
          change (world.cache.setMaxSize maxSize).map _ = _
          rw [hset]
          rfl
        have hback : NeverBack ⟨world.cache, world.disk⟩ (.setMaxSize maxSize) := trivial
        exact ⟨h.upToDate.step hback hworld, fun call hcall => absurd (hidle.symm.trans hcall)
          (by simp)⟩
      · exact absurd hstep (by simp)
  | write path bytes mtime => exact h.write hguard hstep

theorem reachable_undeceived (h : racingSystem.Reachable SparesLoad world) : Undeceived world := by
  induction h with
  | initial hinit =>
      obtain ⟨⟨maxSize, hnew⟩, hidle⟩ := hinit
      refine ⟨⟨hnew ▸ linked_new maxSize, fun path file hfile => ?_⟩, fun call hcall => ?_⟩
      · rw [hnew] at hfile
        exact absurd hfile (by simp [contents, new])
      · exact absurd (hidle.symm.trans hcall) (by simp)
  | step _ hguard hstep ih => exact ih.step hguard hstep

end

/-! ## A call that is not disturbed -/

section

variable {world : Racing} {path : Bytes}

/-- `get` depends on the check only when there is an entry, and on the load only
when there is none that is fresh. -/
theorem get_congr {cache : FileCache} {calls calls' : FileCalls}
    (hcheck : (cache.files path).isSome → calls.checkedMtime = calls'.checkedMtime)
    (hload : cache.Misses path calls → loadFile path calls = loadFile path calls') :
    cache.get path calls = cache.get path calls' := by
  unfold FileCache.get
  cases hfile : cache.files path with
  | none =>
      have hmisses : cache.Misses path calls := fun file hsome => by
        rw [hfile] at hsome
        exact absurd hsome (by simp)
      simp only [loadInto, hload hmisses]
  | some file =>
      have htime : isFileModified calls file.lastModified =
          isFileModified calls' file.lastModified := by
        rw [isFileModified, isFileModified, hcheck (by rw [hfile]; rfl)]
      cases hmodified : isFileModified calls file.lastModified with
      | true =>
          have hmisses : cache.Misses path calls := fun other hsome => by
            obtain rfl : file = other := Option.some.inj (hfile.symm.trans hsome)
            exact hmodified
          simp only [← htime, hmodified, if_true, loadInto, hload hmisses]
      | false => simp only [← htime, hmodified, Bool.false_eq_true, if_false]

theorem step_advance (world : Racing) (allocates : Bool) :
    racingSystem.step world (.advance allocates) =
      world.call.bind fun call => world.advance call allocates := rfl

/-- Undisturbed, a load comes to the end with what loading the file would give. -/
theorem exec_opening {calls : FileCalls} {final : Racing}
    (hcall : world.call = some ⟨path, .opening, calls⟩)
    (hfinish : ∀ results : FileCalls, results.checkedMtime = calls.checkedMtime →
      loadFile path results = loadFile path (world.disk.calls path true) →
      world.finish path results = some final) :
    ∃ steps, racingSystem.exec world (List.replicate steps (.advance true)) = some final := by
  -- the call under way plays no part in the end
  have hend : ∀ call results, Racing.finish { world with call := call } path results =
      world.finish path results := fun _ _ => rfl
  cases hentry : world.disk path with
  | none =>
      have hlast := hfinish { calls with opens := false } rfl
        (by simp [loadFile, Disk.calls, hentry])
      exact ⟨1, by
        simp [Transition.System.exec, step_advance, hcall, Racing.advance, hentry, hlast]⟩
  | some entry =>
      cases hreadable : entry.readable with
      | false =>
          have hlast := hfinish { calls with opens := false } rfl
            (by simp [loadFile, Disk.calls, hentry, hreadable])
          exact ⟨1, by simp [Transition.System.exec, step_advance, hcall, Racing.advance, hentry,
            hreadable, hlast]⟩
      | true =>
          by_cases hempty : entry.bytes = []
          · have hlast :=
              hfinish { calls with opens := true, size := some 0, allocates := true } rfl (by
                simp [loadFile, Disk.calls, hentry, hreadable, hempty, getFileSize])
            exact ⟨2, by simp [Transition.System.exec, List.replicate_succ, step_advance, hcall,
              Racing.advance, Racing.goOn, hentry, hreadable, hempty, getFileSize, hend, hlast]⟩
          · have hlast := hfinish ⟨calls.checkedMtime, true, some entry.bytes.length, true,
              entry.bytes, some entry.mtime⟩ rfl (by simp [loadFile, Disk.calls, hentry, hreadable])
            exact ⟨4, by simp [Transition.System.exec, List.replicate_succ, step_advance, hcall,
              Racing.advance, Racing.goOn, hentry, hreadable, hempty, getFileSize, hend, hlast]⟩

/-- Undisturbed, a `get` does what it does on files that do not change. -/
theorem exec_undisturbed {next : FileCache} {answer : CacheAnswer} (hidle : world.call = none)
    (hget : world.cache.get path (world.disk.calls path true) = some (next, answer)) :
    ∃ steps, racingSystem.exec world (.begin path :: List.replicate steps (.advance true)) =
      some { world with cache := next, call := none, answer := some answer } := by
  have hend : ∀ call results, world.cache.get path results = some (next, answer) →
      Racing.finish { world with call := call } path results =
        some { world with cache := next, call := none, answer := some answer } := by
    intro call results hsame
    simp [Racing.finish, hsame]
  cases hfile : world.cache.files path with
  | none =>
      obtain ⟨steps, hsteps⟩ := @exec_opening
        { world with call := some ⟨path, .opening, noCalls⟩ } path noCalls _ rfl
        fun results _ hload => hend _ results
          ((get_congr (by simp [hfile]) fun _ => hload).trans hget)
      refine ⟨steps, ?_⟩
      simp only [Transition.System.exec, racingSystem, hidle, hfile]
      exact hsteps
  | some file =>
      -- the check comes first, and tells whether the file is loaded
      have hcheck : ∀ {results : FileCalls},
          results.checkedMtime = (world.disk path).map DiskFile.mtime →
          (world.cache.Misses path results →
            loadFile path results = loadFile path (world.disk.calls path true)) →
          world.cache.get path results = some (next, answer) :=
        fun htime hload => (get_congr (fun _ => htime) hload).trans hget
      cases hmodified : isFileModified (world.disk.calls path true) file.lastModified with
      | true =>
          obtain ⟨steps, hsteps⟩ := @exec_opening
            { world with
              call := some ⟨path, .opening,
                { noCalls with checkedMtime := (world.disk path).map DiskFile.mtime }⟩ }
            path _ _ rfl
            fun results htime hload => hend _ results (hcheck htime fun _ => hload)
          have hopens : isFileModified
              { noCalls with checkedMtime := (world.disk path).map DiskFile.mtime }
              file.lastModified = true := hmodified
          have hfirst : racingSystem.step world (.begin path) =
              some { world with call := some ⟨path, .checking, noCalls⟩ } := by
            simp [racingSystem, hidle, hfile, Racing.goOn]
          have hsecond : racingSystem.step
              { world with call := some ⟨path, .checking, noCalls⟩ } (.advance true) =
                some { world with
                  call := some ⟨path, .opening,
                    { noCalls with checkedMtime := (world.disk path).map DiskFile.mtime }⟩ } := by
            simp [step_advance, Racing.advance, Racing.goOn, hfile, hopens]
          refine ⟨steps + 1, ?_⟩
          rw [Transition.System.exec, hfirst, Option.bind_some, List.replicate_succ,
            Transition.System.exec, hsecond]
          exact hsteps
      | false =>
          refine ⟨1, ?_⟩
          have hfresh : isFileModified
              { noCalls with checkedMtime := (world.disk path).map DiskFile.mtime }
              file.lastModified = false := hmodified
          have hlast := hend (some ⟨path, .checking, noCalls⟩)
            { noCalls with checkedMtime := (world.disk path).map DiskFile.mtime }
            (hcheck rfl fun hmisses => absurd ((hmisses file hfile).symm.trans hfresh) (by simp))
          simp [Transition.System.exec, racingSystem, hidle, hfile, Racing.goOn, Racing.advance,
            hfresh, hlast]

theorem eq_of_exec_idle {steps steps' : ℕ} {world final final' : Racing}
    (h : racingSystem.exec world (List.replicate steps (.advance true)) = some final)
    (hidle : final.call = none)
    (h' : racingSystem.exec world (List.replicate steps' (.advance true)) = some final')
    (hidle' : final'.call = none) : final = final' := by
  have hstuck : ∀ {at' : Racing} {rest : List RacingOp} {last : Racing}, at'.call = none →
      racingSystem.exec at' (.advance true :: rest) ≠ some last := by
    intro at' rest last hnone
    simp [Transition.System.exec, step_advance, hnone]
  induction steps generalizing steps' world with
  | zero =>
      cases h
      cases steps' with
      | zero => exact Option.some.inj h'
      | succ steps' => exact absurd h' (hstuck hidle)
  | succ steps ih =>
      cases steps' with
      | zero =>
          cases h'
          exact absurd h (hstuck hidle')
      | succ steps' =>
          obtain ⟨middle, hmiddle, hrest⟩ := Option.bind_eq_some_iff.mp h
          obtain ⟨middle', hmiddle', hrest'⟩ := Option.bind_eq_some_iff.mp h'
          obtain rfl : middle = middle' := Option.some.inj (hmiddle.symm.trans hmiddle')
          exact ih hrest hrest'

theorem Undeceived.answersCurrent (h : Undeceived world) : AnswersCurrent world := by
  intro hidle path
  obtain ⟨next, hget⟩ := h.upToDate.transparent path
  obtain ⟨steps, hsteps⟩ := exec_undisturbed hidle hget
  exact ⟨steps, _, hsteps, rfl, rfl⟩

end

/-- **No write is missed for good.**  In every run whose writes spare the load, every
`get` that begins behind the last write and is not disturbed answers what the file
holds. -/
theorem racing_writes_noticed (world : Racing) (h : racingSystem.Reachable SparesLoad world) :
    AnswersCurrent world :=
  (reachable_undeceived h).answersCurrent

/-- A page, an empty cache. -/
def pageWorld : Racing where
  cache := new 100
  disk := fun _ => some ⟨ascii "old", 100, true⟩
  call := none
  answer := none

/-- The file is written after it was opened. -/
theorem racing_writes_noticed_opened :
    ∃ world, racingSystem.exec pageWorld
        [.begin (ascii "a"), .advance true, .write (ascii "a") (ascii "newer") 101, .advance true,
          .advance true, .advance true] = some world ∧
      world.call = none ∧ AnswersCurrent world := by
  have hrun : (racingSystem.exec pageWorld
      [.begin (ascii "a"), .advance true, .write (ascii "a") (ascii "newer") 101, .advance true,
        .advance true, .advance true]).map (fun world => world.call.isNone) = some true := by
    decide +kernel
  obtain ⟨world, hexec, hidle⟩ := Option.map_eq_some_iff.mp hrun
  refine ⟨world, hexec, Option.isNone_iff_eq_none.mp hidle, racing_writes_noticed world ?_⟩
  have hinit : racingSystem.init pageWorld := ⟨⟨100, rfl⟩, rfl⟩
  exact (Transition.System.Reachable.initial hinit).exec (by decide +kernel) hexec

/-- The file is written between the read and the `stat` for the time: the old bytes
stay, under the new time. -/
theorem racing_write_missed :
    ¬ ∀ world, racingSystem.Reachable Transition.anyStep world → AnswersCurrent world := by
  intro h
  have hrun : (racingSystem.exec pageWorld
      [.begin (ascii "a"), .advance true, .advance true, .advance true,
        .write (ascii "a") (ascii "new") 101, .advance true]).map (fun world =>
      (world.call.isNone, (world.cache.get (ascii "a") (world.disk.calls (ascii "a") true)).map
        Prod.snd, world.disk.current (ascii "a"))) =
      some (true, some (.found (ascii "old") octetStream), .found (ascii "new") octetStream) := by
    decide +kernel
  obtain ⟨world, hexec, hstate⟩ := Option.map_eq_some_iff.mp hrun
  obtain ⟨hidle, hanswers⟩ := Prod.mk.inj hstate
  obtain ⟨hget, hcurrent⟩ := Prod.mk.inj hanswers
  have hinit : racingSystem.init pageWorld := ⟨⟨100, rfl⟩, rfl⟩
  have hnone := Option.isNone_iff_eq_none.mp hidle
  have hreach := Transition.System.reachable_of_exec (S := racingSystem) hinit hexec
  obtain ⟨steps, final, hsteps, hfinal, hanswer⟩ := h world hreach hnone (ascii "a")
  -- the only way to the end of the call leads to the old bytes
  obtain ⟨⟨next, answer⟩, hget, rfl⟩ := Option.map_eq_some_iff.mp hget
  obtain ⟨steps', hsteps'⟩ := exec_undisturbed hnone hget
  obtain ⟨begun, hbegun, hrest⟩ := Option.bind_eq_some_iff.mp hsteps
  obtain ⟨begun', hbegun', hrest'⟩ := Option.bind_eq_some_iff.mp hsteps'
  obtain rfl : begun = begun' := Option.some.inj (hbegun.symm.trans hbegun')
  have hsame := eq_of_exec_idle hrest hfinal hrest' rfl
  rw [hsame, hcurrent, Option.some.injEq, CacheAnswer.found.injEq] at hanswer
  exact absurd hanswer.1 (by decide)

end Sok.FileCache
