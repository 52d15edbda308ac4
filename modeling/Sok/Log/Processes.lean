import Sok.Foundation.Simulation
import Sok.Log.Rotation

/-!
# One log file for many processes

`main` opens the log file and forks; every process has its own `Logger`, with a mutex of
its own and the same file open.  So the mutex does not keep the rotations of two
processes apart, and a process that has a file open keeps it when another one renames
it.  Files are numbered here, and a name refers to a number.

A record always goes whole to the end of the file that its process has open
(`records_kept`), and is lost only with its file: when a rename gives the file's name to
another one.  That happens when two processes that have a full file open rotate within
one second (`second_rotation_loses`).

## Strategy

The steps are first put down to what they do to the directory (`Effect`): nothing, a file
opened, a record appended, a rename.  All invariants go by that split.
What is kept says of every file how its bytes come about: those it began with, then the
records written to it in their order (`Kept`), and a file disappears only as the target of
a rename.  The lost rotation is a run put together step by step from any state in which two
processes hold a full file; steps of others in between do not matter, as no file gets
shorter and no name of the full file changes (`HoldsRenamed.elsewhere`).
-/

namespace Sok.Logger

/-! ## The directory -/

/-- The names of a directory, and the bytes of the files by their numbers. -/
structure Directory where
  names : Bytes → Option ℕ
  data : ℕ → Bytes
  /-- The number of the next file. -/
  next : ℕ

namespace Directory

/-- Open for appending; the file is made when there is none. -/
def openAppend (dir : Directory) (name : Bytes) : Directory × ℕ :=
  match dir.names name with
  | some file => (dir, file)
  | none =>
      ({ dir with names := Function.update dir.names name (some dir.next), next := dir.next + 1 },
        dir.next)

/-- Write at the end of an open file. -/
def append (dir : Directory) (file : ℕ) (bytes : Bytes) : Directory :=
  { dir with data := Function.update dir.data file (dir.data file ++ bytes) }

/-- `std::rename`, which fails when there is no such file. -/
def rename (dir : Directory) (old new : Bytes) : Directory :=
  match dir.names old with
  | some file =>
      { dir with names := Function.update (Function.update dir.names old none) new (some file) }
  | none => dir

/-- The file that loses its name to another one. -/
def replacedBy (dir : Directory) (old new : Bytes) : Option ℕ :=
  match dir.names old with
  | some _ => dir.names new
  | none => none

/-- Every file has one name at most, and a file that is not there is empty. -/
structure WellFormed (dir : Directory) : Prop where
  lt : ∀ name file, dir.names name = some file → file < dir.next
  injective : ∀ name name' file, dir.names name = some file → dir.names name' = some file →
    name = name'
  empty : ∀ file, dir.next ≤ file → dir.data file = []

end Directory

/-! ## The processes -/

/-- Where a process is in `log`: before `tellp`, before `rename`, before `open`, before the record is
written. -/
inductive Stage
  | idle
  | sizing (call : Call)
  | renaming (call : Call)
  | opening (call : Call)
  | writing (call : Call)
  deriving DecidableEq

/-- A process: the file that `ofs_` has open, and where it is. -/
structure Holder where
  ofs : Option ℕ
  stage : Stage
  deriving DecidableEq

/-- A record in the file it was written to. -/
structure Entry where
  file : ℕ
  bytes : Bytes

/-- All processes on one directory, with their history: the records written, and the files whose name
was given to another one. -/
structure Processes (pid : Type*) where
  dir : Directory
  holder : pid → Option Holder
  written : List Entry
  replaced : List ℕ

inductive ProcessOp (pid : Type*)
  /-- `log` is called and takes the mutex. -/
  | begin (p : pid) (call : Call)
  | size (p : pid)
  | rename (p : pid)
  /-- `ofs_.open` in `check_and_rotate`. -/
  | reopen (p : pid) (succeeds : Bool)
  | write (p : pid)
  /-- `set_logfile`. -/
  | setLogfile (p : pid) (succeeds : Bool)
  | fork (p child : pid)
  /-- A process ends, wherever it is. -/
  | exit (p : pid)

/-- The process that makes the step. -/
def ProcessOp.actor {pid : Type*} : ProcessOp pid → pid
  | .begin p _ | .size p | .rename p | .reopen p _ | .write p | .setLogfile p _ | .fork p _
  | .exit p => p

/-- What all processes were given before the first fork. -/
structure Settings where
  localtime : ℤ → Tm
  logFilename : Bytes
  named : logFilename ≠ []
  maxFilesize : ℕ

namespace Settings

variable (settings : Settings)

/-- The name a rotation by this call gives. -/
def target (call : Call) : Bytes :=
  newname settings.logFilename (nowForFilename (settings.localtime call.rotateTime))

end Settings

variable {pid : Type*} [DecidableEq pid]

namespace Processes

/-- A process goes on. -/
def set (run : Processes pid) (p : pid) (holder : Holder) : Processes pid :=
  { run with holder := Function.update run.holder p (some holder) }

variable (settings : Settings)

/-- `check_and_rotate` from `tellp` to `close`. -/
def size (run : Processes pid) (p : pid) (call : Call) (file : ℕ) : Processes pid :=
  if settings.maxFilesize ≤ (run.dir.data file).length then run.set p ⟨none, .renaming call⟩
  else run.set p ⟨some file, .writing call⟩

/-- `rename`. -/
def rename (run : Processes pid) (p : pid) (call : Call) : Processes pid :=
  { run with
    dir := run.dir.rename settings.logFilename (settings.target call)
    replaced := run.replaced ++
      (run.dir.replacedBy settings.logFilename (settings.target call)).toList }.set p
        ⟨none, .opening call⟩

/-- `ofs_.open`. -/
def reopen (run : Processes pid) (p : pid) (succeeds : Bool) (stage : Stage) : Processes pid :=
  if succeeds then
    { run with dir := (run.dir.openAppend settings.logFilename).1 }.set p
      ⟨some (run.dir.openAppend settings.logFilename).2, stage⟩
  else run.set p ⟨none, stage⟩

/-- The record is written, when a file is open. -/
def write (run : Processes pid) (p : pid) (call : Call) : Option ℕ → Processes pid
  | some file =>
      { run with
        dir := run.dir.append file (record settings.localtime call)
        written := run.written ++ [Entry.mk file (record settings.localtime call)] }.set p
          ⟨some file, .idle⟩
  | none => run.set p ⟨none, .idle⟩

end Processes

/-- One process, whose log file is not open yet. -/
def Processes.start (dir : Directory) (main : pid) : Processes pid where
  dir := dir
  holder := Function.update (fun _ => none) main (some ⟨none, .idle⟩)
  written := []
  replaced := []

/-- The processes on a directory, from the start of `main` on. -/
def processes (settings : Settings) (dir : Directory) (main : pid) :
    Transition.System (Processes pid) (ProcessOp pid) where
  init run := run = Processes.start dir main
  step run
    | .begin p call =>
        match run.holder p with
        | some ⟨some file, .idle⟩ => some (run.set p ⟨some file, .sizing call⟩)
        | some ⟨none, .idle⟩ => some (run.set p ⟨none, .writing call⟩)
        | _ => none
    | .size p =>
        match run.holder p with
        | some ⟨some file, .sizing call⟩ => some (run.size settings p call file)
        | _ => none
    | .rename p =>
        match run.holder p with
        | some ⟨none, .renaming call⟩ => some (run.rename settings p call)
        | _ => none
    | .reopen p succeeds =>
        match run.holder p with
        | some ⟨none, .opening call⟩ => some (run.reopen settings p succeeds (.writing call))
        | _ => none
    | .write p =>
        match run.holder p with
        | some ⟨ofs, .writing call⟩ => some (run.write settings p call ofs)
        | _ => none
    | .setLogfile p succeeds =>
        match run.holder p with
        | some ⟨_, .idle⟩ => some (run.reopen settings p succeeds .idle)
        | _ => none
    | .fork p child =>
        match run.holder p, run.holder child with
        | some ⟨ofs, .idle⟩, none => some (run.set child ⟨ofs, .idle⟩)
        | _, _ => none
    | .exit p =>
        match run.holder p with
        | some _ => some { run with holder := Function.update run.holder p none }
        | none => none

/-- **The condition.**  A rotation gives a name that no file has. -/
def FreshTarget (settings : Settings) (run : Processes pid) : ProcessOp pid → Prop
  | .rename p => ∀ call, run.holder p = some ⟨none, .renaming call⟩ →
      run.dir.names (settings.target call) = none
  | _ => True

/-! ## The directory, step by step -/

namespace Directory

variable {dir : Directory} {old new name : Bytes} {file : ℕ}

theorem openAppend_of_some (hname : dir.names name = some file) :
    dir.openAppend name = (dir, file) := by
  simp only [openAppend, hname]

theorem openAppend_of_none (hname : dir.names name = none) :
    dir.openAppend name =
      ({ dir with names := Function.update dir.names name (some dir.next), next := dir.next + 1 },
        dir.next) := by
  simp only [openAppend, hname]

theorem names_openAppend_self (dir : Directory) (name : Bytes) :
    (dir.openAppend name).1.names name = some (dir.openAppend name).2 := by
  cases hname : dir.names name with
  | some file =>
      rw [openAppend_of_some hname]
      exact hname
  | none =>
      rw [openAppend_of_none hname]
      exact Function.update_self ..

theorem names_openAppend (hfile : dir.names old = some file) (name : Bytes) :
    (dir.openAppend name).1.names old = some file := by
  cases hname : dir.names name with
  | some _ =>
      rw [openAppend_of_some hname]
      exact hfile
  | none =>
      have hne : old ≠ name := by
        rintro rfl
        exact absurd (hname.symm.trans hfile) (by simp)
      rw [openAppend_of_none hname]
      exact (Function.update_of_ne hne ..).trans hfile

theorem names_of_openAppend (hfile : (dir.openAppend name).1.names old = some file) :
    dir.names old = some file ∨ old = name ∧ file = dir.next ∧ dir.names name = none := by
  cases hname : dir.names name with
  | some _ =>
      rw [openAppend_of_some hname] at hfile
      exact Or.inl hfile
  | none =>
      rw [openAppend_of_none hname] at hfile
      dsimp only at hfile
      by_cases heq : old = name
      · subst heq
        rw [Function.update_self] at hfile
        exact Or.inr ⟨rfl, (Option.some.inj hfile).symm, rfl⟩
      · rw [Function.update_of_ne heq] at hfile
        exact Or.inl hfile

theorem data_openAppend (dir : Directory) (name : Bytes) :
    (dir.openAppend name).1.data = dir.data := by
  unfold openAppend
  cases dir.names name <;> rfl

theorem next_le_openAppend (dir : Directory) (name : Bytes) :
    dir.next ≤ (dir.openAppend name).1.next := by
  unfold openAppend
  cases dir.names name with
  | some _ => exact le_rfl
  | none => exact Nat.le_succ _

theorem WellFormed.openAppend (h : dir.WellFormed) (name : Bytes) :
    (dir.openAppend name).1.WellFormed := by
  refine ⟨fun other file hother => ?_, fun first second file hfirst hsecond => ?_,
    fun file hle => ?_⟩
  · rcases names_of_openAppend hother with hold | ⟨-, rfl, hnone⟩
    · exact (h.lt _ _ hold).trans_le (next_le_openAppend dir name)
    · rw [openAppend_of_none hnone]
      exact Nat.lt_succ_self _
  · -- the new number belongs to no other name
    rcases names_of_openAppend hfirst with hone | ⟨rfl, rfl, -⟩
    · rcases names_of_openAppend hsecond with htwo | ⟨-, rfl, -⟩
      · exact h.injective _ _ _ hone htwo
      · exact absurd (h.lt _ _ hone) (Nat.lt_irrefl _)
    · rcases names_of_openAppend hsecond with htwo | ⟨rfl, -, -⟩
      · exact absurd (h.lt _ _ htwo) (Nat.lt_irrefl _)
      · rfl
  · rw [data_openAppend]
    exact h.empty file ((next_le_openAppend dir name).trans hle)

theorem WellFormed.append (h : dir.WellFormed) (hlt : file < dir.next) (bytes : Bytes) :
    (dir.append file bytes).WellFormed := by
  refine ⟨h.lt, h.injective, fun other hle => ?_⟩
  have hne : other ≠ file := (Nat.lt_of_lt_of_le hlt hle).ne'
  exact (Function.update_of_ne hne ..).trans (h.empty other hle)

theorem names_rename (hold : dir.names old = some file) (name : Bytes) :
    (dir.rename old new).names name =
      if name = new then some file else if name = old then none else dir.names name := by
  simp only [rename, hold]
  by_cases hnew : name = new
  · rw [if_pos hnew, hnew, Function.update_self]
  · rw [if_neg hnew, Function.update_of_ne hnew]
    by_cases heq : name = old
    · rw [if_pos heq, heq, Function.update_self]
    · rw [if_neg heq, Function.update_of_ne heq]

theorem rename_of_none (hold : dir.names old = none) : dir.rename old new = dir := by
  simp only [rename, hold]

theorem data_rename (dir : Directory) (old new : Bytes) :
    (dir.rename old new).data = dir.data := by
  unfold rename
  cases dir.names old <;> rfl

theorem next_rename (dir : Directory) (old new : Bytes) :
    (dir.rename old new).next = dir.next := by
  unfold rename
  cases dir.names old <;> rfl

/-- Behind a rename, a name is another file's only when it is the new name. -/
theorem names_of_rename (hold : dir.names old = some file) {other : ℕ}
    (hname : (dir.rename old new).names name = some other) :
    name = new ∧ other = file ∨ name ≠ new ∧ name ≠ old ∧ dir.names name = some other := by
  rw [names_rename hold] at hname
  split at hname
  case isTrue hnew => exact Or.inl ⟨hnew, (Option.some.inj hname).symm⟩
  case isFalse hnew =>
    split at hname
    case isTrue => exact absurd hname (by simp)
    case isFalse heq => exact Or.inr ⟨hnew, heq, hname⟩

theorem WellFormed.rename (h : dir.WellFormed) (old new : Bytes) :
    (dir.rename old new).WellFormed := by
  cases hold : dir.names old with
  | none =>
      rw [rename_of_none hold]
      exact h
  | some file =>
      refine ⟨fun name other hname => ?_, fun first second other hfirst hsecond => ?_,
        fun other => ?_⟩
      · rw [next_rename]
        rcases names_of_rename hold hname with ⟨-, rfl⟩ | ⟨-, -, hother⟩
        · exact h.lt _ _ hold
        · exact h.lt _ _ hother
      · rcases names_of_rename hold hfirst with ⟨rfl, rfl⟩ | ⟨-, hne, hother⟩
        · rcases names_of_rename hold hsecond with ⟨rfl, -⟩ | ⟨-, hne, hother⟩
          · rfl
          · exact absurd (h.injective _ _ _ hother hold) hne
        · rcases names_of_rename hold hsecond with ⟨rfl, rfl⟩ | ⟨-, -, hother'⟩
          · exact absurd (h.injective _ _ _ hother hold) hne
          · exact h.injective _ _ _ hother hother'
      · rw [data_rename, next_rename]
        exact h.empty other

/-- A file that has a name has one behind the rename, unless it is replaced. -/
theorem named_rename {other : ℕ} (hname : dir.names name = some other) :
    (∃ name, (dir.rename old new).names name = some other) ∨
      dir.replacedBy old new = some other := by
  cases hold : dir.names old with
  | none =>
      rw [rename_of_none hold]
      exact Or.inl ⟨name, hname⟩
  | some file =>
      by_cases hnew : name = new
      · subst hnew
        exact Or.inr (by rw [replacedBy, hold]; exact hname)
      · by_cases heq : name = old
        · subst heq
          refine Or.inl ⟨new, ?_⟩
          rw [names_rename hold, if_pos rfl, ← hold, hname]
        · refine Or.inl ⟨name, ?_⟩
          rw [names_rename hold, if_neg hnew, if_neg heq, hname]

theorem named_of_rename (hname : (dir.rename old new).names name = some file) :
    ∃ name, dir.names name = some file := by
  cases hold : dir.names old with
  | none =>
      rw [rename_of_none hold] at hname
      exact ⟨name, hname⟩
  | some other =>
      rcases names_of_rename hold hname with ⟨-, rfl⟩ | ⟨-, -, hfile⟩
      · exact ⟨old, hold⟩
      · exact ⟨name, hfile⟩

theorem names_of_replacedBy (h : dir.replacedBy old new = some file) :
    dir.names new = some file := by
  unfold replacedBy at h
  split at h
  · exact h
  · exact absurd h (by simp)

/-- A file that is replaced has no name. -/
theorem WellFormed.not_named_rename (h : dir.WellFormed) (hne : new ≠ old)
    (hreplaced : dir.replacedBy old new = some file) (name : Bytes) :
    (dir.rename old new).names name ≠ some file := by
  intro hname
  have hnew : dir.names new = some file := names_of_replacedBy hreplaced
  cases hold : dir.names old with
  | none => simp [replacedBy, hold] at hreplaced
  | some other =>
      rcases names_of_rename hold hname with ⟨-, rfl⟩ | ⟨hne', -, hfile⟩
      · exact hne (h.injective _ _ _ hnew hold)
      · exact hne' (h.injective _ _ _ hfile hnew)

end Directory

/-! ## The steps -/

variable {settings : Settings} {initial : Directory} {main : pid} {run next : Processes pid}

/-- Every open file is open in a process of `run`. -/
def OpenIn (next run : Processes pid) : Prop :=
  ∀ p file stage, next.holder p = some ⟨some file, stage⟩ →
    ∃ q stage', run.holder q = some ⟨some file, stage'⟩

/-- What a step does to the directory and the history. -/
inductive Effect (settings : Settings) (run : Processes pid) : ProcessOp pid → Processes pid → Prop
  | quiet {op : ProcessOp pid} {next : Processes pid} (hdir : next.dir = run.dir)
      (hwritten : next.written = run.written) (hreplaced : next.replaced = run.replaced)
      (hopen : OpenIn next run) : Effect settings run op next
  | rename {p : pid} {call : Call} (hrenaming : run.holder p = some ⟨none, .renaming call⟩) :
      Effect settings run (.rename p) (run.rename settings p call)
  | reopen {op : ProcessOp pid} (p : pid) (stage : Stage) :
      Effect settings run op (run.reopen settings p true stage)
  | write {op : ProcessOp pid} {p : pid} {call : Call} {file : ℕ}
      (hwriting : run.holder p = some ⟨some file, .writing call⟩) :
      Effect settings run op (run.write settings p call (some file))

/-- A process goes on, with nothing open that was not open in a process. -/
theorem openIn_set {p : pid} {ofs : Option ℕ} {stage : Stage}
    (hofs : ∀ file, ofs = some file → ∃ q stage', run.holder q = some ⟨some file, stage'⟩) :
    OpenIn (run.set p ⟨ofs, stage⟩) run := by
  intro q file stage' hq
  by_cases heq : q = p
  · subst heq
    simp only [Processes.set, Function.update_self, Option.some.injEq, Holder.mk.injEq] at hq
    exact hofs file hq.1
  · simp only [Processes.set, Function.update_of_ne heq] at hq
    exact ⟨q, stage', hq⟩

theorem effect_set {op : ProcessOp pid} {p : pid} {ofs : Option ℕ} {stage : Stage}
    (hofs : ∀ file, ofs = some file → ∃ q stage', run.holder q = some ⟨some file, stage'⟩) :
    Effect settings run op (run.set p ⟨ofs, stage⟩) :=
  .quiet rfl rfl rfl (openIn_set hofs)

variable (settings) in
/-- What one step is made from, and where it goes. -/
inductive ProcessStep (run : Processes pid) : ProcessOp pid → Processes pid → Prop
  | beginOpen {p : pid} {call : Call} {file : ℕ}
      (hidle : run.holder p = some ⟨some file, .idle⟩) :
      ProcessStep run (.begin p call) (run.set p ⟨some file, .sizing call⟩)
  | beginClosed {p : pid} {call : Call} (hidle : run.holder p = some ⟨none, .idle⟩) :
      ProcessStep run (.begin p call) (run.set p ⟨none, .writing call⟩)
  | size {p : pid} {call : Call} {file : ℕ}
      (hsizing : run.holder p = some ⟨some file, .sizing call⟩) :
      ProcessStep run (.size p) (run.size settings p call file)
  | rename {p : pid} {call : Call} (hrenaming : run.holder p = some ⟨none, .renaming call⟩) :
      ProcessStep run (.rename p) (run.rename settings p call)
  | reopen {p : pid} {call : Call} {succeeds : Bool}
      (hopening : run.holder p = some ⟨none, .opening call⟩) :
      ProcessStep run (.reopen p succeeds) (run.reopen settings p succeeds (.writing call))
  | write {p : pid} {call : Call} {ofs : Option ℕ}
      (hwriting : run.holder p = some ⟨ofs, .writing call⟩) :
      ProcessStep run (.write p) (run.write settings p call ofs)
  | setLogfile {p : pid} {ofs : Option ℕ} {succeeds : Bool}
      (hidle : run.holder p = some ⟨ofs, .idle⟩) :
      ProcessStep run (.setLogfile p succeeds) (run.reopen settings p succeeds .idle)
  | fork {p child : pid} {ofs : Option ℕ} (hidle : run.holder p = some ⟨ofs, .idle⟩)
      (hchild : run.holder child = none) :
      ProcessStep run (.fork p child) (run.set child ⟨ofs, .idle⟩)
  | exit {p : pid} :
      ProcessStep run (.exit p) { run with holder := Function.update run.holder p none }

theorem processStep_of_step {op : ProcessOp pid}
    (h : (processes settings initial main).step run op = some next) :
    ProcessStep settings run op next := by
  cases op with
  | begin p call =>
      simp only [processes] at h
      split at h
      case h_1 hidle =>
        cases h
        exact .beginOpen hidle
      case h_2 hidle =>
        cases h
        exact .beginClosed hidle
      case h_3 => cases h
  | size p =>
      simp only [processes] at h
      split at h
      case h_1 hsizing =>
        cases h
        exact .size hsizing
      case h_2 => cases h
  | rename p =>
      simp only [processes] at h
      split at h
      case h_1 hrenaming =>
        cases h
        exact .rename hrenaming
      case h_2 => cases h
  | reopen p succeeds =>
      simp only [processes] at h
      split at h
      case h_1 hopening =>
        cases h
        exact .reopen hopening
      case h_2 => cases h
  | write p =>
      simp only [processes] at h
      split at h
      case h_1 hwriting =>
        cases h
        exact .write hwriting
      case h_2 => cases h
  | setLogfile p succeeds =>
      simp only [processes] at h
      split at h
      case h_1 hidle =>
        cases h
        exact .setLogfile hidle
      case h_2 => cases h
  | fork p child =>
      simp only [processes] at h
      split at h
      case h_1 hidle hchild =>
        cases h
        exact .fork hidle hchild
      case h_2 => cases h
  | exit p =>
      simp only [processes] at h
      split at h
      case h_1 =>
        cases h
        exact .exit
      case h_2 => cases h

theorem effect_of_step {op : ProcessOp pid}
    (h : (processes settings initial main).step run op = some next) :
    Effect settings run op next := by
  have hnone : ∀ file : ℕ, (none : Option ℕ) = some file →
      ∃ q stage', run.holder q = some ⟨some file, stage'⟩ :=
    fun _ hfile => absurd hfile (by simp)
  have hsome : ∀ {p : pid} {ofs : Option ℕ} {stage : Stage}, run.holder p = some ⟨ofs, stage⟩ →
      ∀ file, ofs = some file → ∃ q stage', run.holder q = some ⟨some file, stage'⟩ := by
    rintro p ofs stage hp file rfl
    exact ⟨p, stage, hp⟩
  cases processStep_of_step h with
  | beginOpen hidle => exact effect_set (hsome hidle)
  | beginClosed _ => exact effect_set hnone
  | size hsizing =>
      unfold Processes.size
      split
      · exact effect_set hnone
      · exact effect_set (hsome hsizing)
  | rename hrenaming => exact .rename hrenaming
  | @reopen p call succeeds _ =>
      cases succeeds with
      | true => exact .reopen p _
      | false => exact effect_set hnone
  | @write p call ofs hwriting =>
      cases ofs with
      | some file => exact .write hwriting
      | none => exact effect_set hnone
  | @setLogfile p ofs succeeds _ =>
      cases succeeds with
      | true => exact .reopen p _
      | false => exact effect_set hnone
  | fork hidle _ => exact effect_set (hsome hidle)
  | @exit p =>
      refine .quiet rfl rfl rfl fun q file stage hq => ?_
      by_cases heq : q = p
      · subst heq
        simp only [Function.update_self] at hq
        cases hq
      · simp only [Function.update_of_ne heq] at hq
        exact ⟨q, stage, hq⟩

/-! ## What is kept -/

/-- The file is in the directory, or has been replaced. -/
def Tracked (run : Processes pid) (file : ℕ) : Prop :=
  (∃ name, run.dir.names name = some file) ∨ file ∈ run.replaced

/-- Nothing is lost but what is replaced. -/
structure Kept (initial : Directory) (run : Processes pid) : Prop where
  wellFormed : run.dir.WellFormed
  opened : ∀ p file stage, run.holder p = some ⟨some file, stage⟩ → Tracked run file
  data : ∀ file, run.dir.data file = initial.data file ++
    (run.written.filter fun entry => entry.file = file).flatMap Entry.bytes
  written : ∀ entry ∈ run.written, Tracked run entry.file
  initial : ∀ name file, initial.names name = some file → Tracked run file
  replaced : ∀ file ∈ run.replaced, file < run.dir.next ∧ ∀ name, run.dir.names name ≠ some file

omit [DecidableEq pid] in
theorem Kept.lt (h : Kept initial run) {file : ℕ} (htracked : Tracked run file) :
    file < run.dir.next := by
  rcases htracked with ⟨name, hname⟩ | hreplaced
  · exact h.wellFormed.lt _ _ hname
  · exact (h.replaced file hreplaced).1

theorem Effect.tracked {op : ProcessOp pid} (h : Effect settings run op next) {file : ℕ}
    (htracked : Tracked run file) :
    Tracked next file := by
  cases h with
  | quiet hdir _ hreplaced _ => rwa [Tracked, hdir, hreplaced]
  | rename hrenaming =>
      rcases htracked with ⟨name, hname⟩ | hreplaced
      · rcases Directory.named_rename hname with hnamed | hreplaced
        · exact Or.inl hnamed
        · refine Or.inr (List.mem_append_right _ ?_)
          rw [hreplaced]
          exact List.mem_singleton_self _
      · exact Or.inr (List.mem_append_left _ hreplaced)
  | reopen p stage =>
      rcases htracked with ⟨name, hname⟩ | hreplaced
      · exact Or.inl ⟨name, Directory.names_openAppend hname _⟩
      · exact Or.inr hreplaced
  | write hwriting => exact htracked

theorem Kept.effect (h : Kept initial run) {op : ProcessOp pid}
    (heffect : Effect settings run op next) :
    Kept initial next := by
  have htracked : ∀ {file : ℕ}, Tracked run file → Tracked next file := heffect.tracked
  cases heffect with
  | quiet hdir hwritten hreplaced hopen =>
      refine ⟨hdir ▸ h.wellFormed, fun p file stage hp => ?_, fun file => ?_, fun entry hentry => ?_,
        fun name file hname => htracked (h.initial name file hname), fun file hfile => ?_⟩
      · obtain ⟨q, stage', hq⟩ := hopen p file stage hp
        exact htracked (h.opened q file stage' hq)
      · rw [hdir, hwritten]
        exact h.data file
      · rw [hwritten] at hentry
        exact htracked (h.written entry hentry)
      · rw [hreplaced] at hfile
        rw [hdir]
        exact h.replaced file hfile
  | @rename p call hrenaming =>
      refine ⟨h.wellFormed.rename _ _, fun q file stage hq => ?_, fun file => ?_,
        fun entry hentry => htracked (h.written entry hentry),
        fun name file hname => htracked (h.initial name file hname), fun file hfile => ?_⟩
      · have hopen : OpenIn (run.rename settings p call) run :=
          openIn_set fun _ hfile => absurd hfile (by simp)
        obtain ⟨q', stage', hq'⟩ := hopen q file stage hq
        exact htracked (h.opened q' file stage' hq')
      · exact (congrFun (Directory.data_rename ..) file).trans (h.data file)
      · change file < (run.dir.rename _ _).next ∧ _
        rw [Directory.next_rename]
        rcases List.mem_append.mp hfile with hold | hnew
        · refine ⟨(h.replaced file hold).1, fun name hname => ?_⟩
          obtain ⟨before, hbefore⟩ := Directory.named_of_rename hname
          exact (h.replaced file hold).2 before hbefore
        · have hreplaced := Option.mem_toList.mp hnew
          exact ⟨h.wellFormed.lt _ _ (Directory.names_of_replacedBy hreplaced),
            h.wellFormed.not_named_rename (newname_ne _ _) hreplaced⟩
  | reopen p stage =>
      refine ⟨h.wellFormed.openAppend _, fun q file stage' hq => ?_, fun file => ?_,
        fun entry hentry => htracked (h.written entry hentry),
        fun name file hname => htracked (h.initial name file hname), fun file hfile => ?_⟩
      · by_cases heq : q = p
        · subst heq
          simp only [Processes.reopen, Processes.set, if_true, Function.update_self,
            Option.some.injEq, Holder.mk.injEq] at hq
          refine Or.inl ⟨settings.logFilename, ?_⟩
          rw [← hq.1]
          exact Directory.names_openAppend_self ..
        · simp only [Processes.reopen, Processes.set, if_true, Function.update_of_ne heq] at hq
          exact htracked (h.opened q file stage' hq)
      · exact (congrFun (Directory.data_openAppend ..) file).trans (h.data file)
      · obtain ⟨hlt, hname⟩ := h.replaced file hfile
        refine ⟨hlt.trans_le (Directory.next_le_openAppend ..), fun name hnamed => ?_⟩
        rcases Directory.names_of_openAppend hnamed with hold | ⟨-, rfl, -⟩
        · exact hname name hold
        · exact absurd hlt (Nat.lt_irrefl _)
  | @write _ p call file hwriting =>
      have hfile : Tracked run file := h.opened p file _ hwriting
      refine ⟨h.wellFormed.append (h.lt hfile) _, fun q other stage hq => ?_, fun other => ?_,
        fun entry hentry => ?_, fun name file hname => htracked (h.initial name file hname),
        h.replaced⟩
      · have hopen : OpenIn (run.write settings p call (some file)) run := by
          refine openIn_set fun other hother => ?_
          cases hother
          exact ⟨p, _, hwriting⟩
        obtain ⟨q', stage', hq'⟩ := hopen q other stage hq
        exact htracked (h.opened q' other stage' hq')
      · change Function.update run.dir.data file _ other = _ ++ List.flatMap _
          ((run.written ++ [Entry.mk file (record settings.localtime call)]).filter _)
        rw [List.filter_append, List.flatMap_append, ← List.append_assoc, ← h.data other]
        by_cases heq : other = file
        · subst heq
          rw [Function.update_self]
          simp
        · rw [Function.update_of_ne heq]
          simp [Ne.symm heq]
      · rcases List.mem_append.mp hentry with hold | hnew
        · exact htracked (h.written entry hold)
        · rw [List.mem_singleton.mp hnew]
          exact htracked hfile

theorem Kept.start (h : initial.WellFormed)
    (hinit : (processes settings initial main).init run) : Kept initial run := by
  obtain rfl := hinit
  refine ⟨h, fun p file stage hp => ?_, fun file => (List.append_nil _).symm,
    fun _ hentry => absurd hentry List.not_mem_nil, fun name file hname => Or.inl ⟨name, hname⟩,
    fun _ hfile => absurd hfile List.not_mem_nil⟩
  by_cases heq : p = main
  · subst heq
    simp [Processes.start] at hp
  · simp [Processes.start, Function.update_of_ne heq] at hp

theorem kept_of_reachable {guard : Processes pid → ProcessOp pid → Prop}
    (hinitial : initial.WellFormed) (h : (processes settings initial main).Reachable guard run) :
    Kept initial run :=
  h.invariant (fun _ hinit => Kept.start hinitial hinit)
    fun _ _ _ _ hstep hkept => hkept.effect (effect_of_step hstep)

/-- A rename to a name that no file has replaces nothing. -/
theorem replaced_of_fresh {op : ProcessOp pid} (hfresh : FreshTarget settings run op)
    (h : (processes settings initial main).step run op = some next) :
    next.replaced = run.replaced := by
  cases effect_of_step h with
  | quiet _ _ hreplaced _ => exact hreplaced
  | @rename p call hrenaming =>
      have hnone : run.dir.replacedBy settings.logFilename (settings.target call) = none := by
        cases hold : run.dir.names settings.logFilename with
        | none => simp only [Directory.replacedBy, hold]
        | some _ => simpa only [Directory.replacedBy, hold] using hfresh call hrenaming
      change run.replaced ++ (run.dir.replacedBy _ _).toList = run.replaced
      rw [hnone]
      exact List.append_nil _
  | reopen _ _ => rfl
  | write _ => rfl

/-- The file is one of the directory's from the start on, or a record has been written to it. -/
def Used (initial : Directory) (run : Processes pid) (file : ℕ) : Prop :=
  (∃ name, initial.names name = some file) ∨ ∃ entry ∈ run.written, entry.file = file

/-- **What many processes keep.**  However the processes of a server are interleaved, between any two
system calls of their rotations, and whenever they fork and end: every record is in the file that
it was written to, whole and in the order of writing, behind what the file held before; and the file
is in the directory under one name, unless a rename has given its name to another file.  No rename
does so as long as every rotation gives a name that no file has. -/
theorem records_kept {guard : Processes pid → ProcessOp pid → Prop} (hinitial : initial.WellFormed)
    (h : (processes settings initial main).Reachable guard run) :
    (∀ file, run.dir.data file = initial.data file ++
      (run.written.filter fun entry => entry.file = file).flatMap Entry.bytes) ∧
    (∀ file, Used initial run file →
      ((∃! name, run.dir.names name = some file) ↔ file ∉ run.replaced)) ∧
    ((∀ run op, guard run op → FreshTarget settings run op) → run.replaced = []) := by
  have hkept : Kept initial run := kept_of_reachable hinitial h
  refine ⟨hkept.data, fun file hused => ⟨?_, fun hnot => ?_⟩, fun hguard => ?_⟩
  · rintro ⟨name, hname, -⟩ hreplaced
    exact (hkept.replaced file hreplaced).2 name hname
  · have htracked : Tracked run file := by
      rcases hused with ⟨name, hname⟩ | ⟨entry, hentry, rfl⟩
      · exact hkept.initial name file hname
      · exact hkept.written entry hentry
    obtain ⟨name, hname⟩ := htracked.resolve_right hnot
    exact ⟨name, hname, fun other hother => hkept.wellFormed.injective _ _ _ hother hname⟩
  · refine @Transition.System.Reachable.invariant _ _ (processes settings initial main) guard
      (fun run => run.replaced = []) ?_ ?_ run h
    · rintro run rfl
      rfl
    · intro run op next hop hstep hnil
      exact (replaced_of_fresh (hguard run op hop) hstep).trans hnil

/-! ## Two rotations within a second -/

/-- A call of `log` that rotates. -/
def rotating (p : pid) (call : Call) : List (ProcessOp pid) :=
  [.begin p call, .size p, .rename p, .reopen p true, .write p]

/-- A step of other processes, none of which renames. -/
def Elsewhere (q : pid) (_ : Processes pid) (op : ProcessOp pid) : Prop :=
  op.actor ≠ q ∧ ∀ p, op ≠ .rename p

/-- The log file is there, `file` has been renamed, and `q` has it open and finds it full. -/
structure HoldsRenamed (settings : Settings) (run : Processes pid) (q : pid) (file : ℕ)
    (name : Bytes) : Prop where
  holder : run.holder q = some ⟨some file, .idle⟩
  full : settings.maxFilesize ≤ (run.dir.data file).length
  renamed : run.dir.names name = some file
  active : ∃ other, run.dir.names settings.logFilename = some other

section Rotations

variable {q : pid} {op : ProcessOp pid} {name : Bytes} {file : ℕ}

/-- A process does not move another one. -/
theorem holder_of_other {holder : Holder}
    (h : (processes settings initial main).step run op = some next) (hne : op.actor ≠ q)
    (hq : run.holder q = some holder) : next.holder q = some holder := by
  have hset : ∀ {run : Processes pid} {p : pid} {moved : Holder}, p ≠ q →
      run.holder q = some holder → (run.set p moved).holder q = some holder :=
    fun hne hq => (Function.update_of_ne (Ne.symm hne) ..).trans hq
  cases processStep_of_step h with
  | beginOpen _ | beginClosed _ => exact hset hne hq
  | size _ =>
      unfold Processes.size
      split <;> exact hset hne hq
  | rename _ =>
      unfold Processes.rename
      exact hset hne hq
  | @write p call ofs _ => cases ofs <;> exact hset hne hq
  | @reopen p call succeeds _ => cases succeeds <;> exact hset hne hq
  | @setLogfile p ofs succeeds _ => cases succeeds <;> exact hset hne hq
  | fork _ hchild =>
      refine hset ?_ hq
      rintro rfl
      exact absurd (hq.symm.trans hchild) (by simp)
  | exit => exact (Function.update_of_ne (Ne.symm hne) ..).trans hq

theorem Effect.length_le (h : Effect settings run op next) (file : ℕ) :
    (run.dir.data file).length ≤ (next.dir.data file).length := by
  cases h with
  | quiet hdir _ _ _ => rw [hdir]
  | rename _ =>
      change _ ≤ ((run.dir.rename _ _).data file).length
      rw [Directory.data_rename]
  | reopen p _ =>
      change _ ≤ ((run.dir.openAppend _).1.data file).length
      rw [Directory.data_openAppend]
  | @write _ p call other _ =>
      change _ ≤ (Function.update run.dir.data other _ file).length
      by_cases heq : file = other
      · subst heq
        rw [Function.update_self, List.length_append]
        exact Nat.le_add_right _ _
      · rw [Function.update_of_ne heq]

theorem Effect.named (h : Effect settings run op next) (hop : ∀ p, op ≠ .rename p)
    (hname : run.dir.names name = some file) : next.dir.names name = some file := by
  cases h with
  | quiet hdir _ _ _ => rwa [hdir]
  | rename _ => exact absurd rfl (hop _)
  | reopen p _ => exact Directory.names_openAppend hname _
  | write _ => exact hname

/-- Steps elsewhere change nothing for a process that has the full file open. -/
theorem HoldsRenamed.elsewhere {ops : List (ProcessOp pid)} (h : HoldsRenamed settings run q file name)
    (hrun : (processes settings initial main).Run (Elsewhere q) run ops next) :
    HoldsRenamed settings next q file name := by
  induction ops generalizing run with
  | nil =>
      obtain rfl := hrun.eq_of_nil
      exact h
  | cons op ops ih =>
      obtain ⟨middle, ⟨hactor, hrename⟩, hstep, hrest⟩ := hrun.exists_of_cons
      have heffect := effect_of_step hstep
      refine ih ⟨holder_of_other hstep hactor h.holder, h.full.trans (heffect.length_le file),
        heffect.named hrename h.renamed, ?_⟩ hrest
      obtain ⟨other, hother⟩ := h.active
      exact ⟨other, heffect.named hrename hother⟩

/-- What a call of `log` does in a process that has a full file open. -/
structure Rotated (settings : Settings) (run next : Processes pid) (p : pid) (call : Call) :
    Prop where
  others : ∀ q holder, q ≠ p → run.holder q = some holder → next.holder q = some holder
  names : next.dir.names =
    ((run.dir.rename settings.logFilename (settings.target call)).openAppend
      settings.logFilename).1.names
  replaced : next.replaced =
    run.replaced ++ (run.dir.replacedBy settings.logFilename (settings.target call)).toList
  length_le : ∀ file, (run.dir.data file).length ≤ (next.dir.data file).length

theorem holder_of_exec {holder : Holder} {ops : List (ProcessOp pid)}
    (hexec : (processes settings initial main).exec run ops = some next)
    (hne : ∀ op ∈ ops, op.actor ≠ q) (hq : run.holder q = some holder) :
    next.holder q = some holder := by
  induction ops generalizing run with
  | nil =>
      cases hexec
      exact hq
  | cons op ops ih =>
      obtain ⟨middle, hstep, hrest⟩ := Option.bind_eq_some_iff.mp hexec
      have hmiddle := holder_of_other hstep (hne op List.mem_cons_self) hq
      exact ih hrest (fun other hother => hne other (List.mem_cons_of_mem _ hother)) hmiddle

theorem length_le_of_exec {ops : List (ProcessOp pid)}
    (hexec : (processes settings initial main).exec run ops = some next) (file : ℕ) :
    (run.dir.data file).length ≤ (next.dir.data file).length := by
  induction ops generalizing run with
  | nil =>
      cases hexec
      exact le_rfl
  | cons op ops ih =>
      obtain ⟨middle, hstep, hrest⟩ := Option.bind_eq_some_iff.mp hexec
      exact ((effect_of_step hstep).length_le file).trans (ih hrest)

theorem holder_set (run : Processes pid) (p : pid) (holder : Holder) :
    (run.set p holder).holder p = some holder :=
  Function.update_self ..

/-- A record that finds the log file full renames what has its name now. -/
theorem exists_rotated {p : pid} (hholder : run.holder p = some ⟨some file, .idle⟩)
    (hfull : settings.maxFilesize ≤ (run.dir.data file).length) (call : Call) :
    ∃ next, (processes settings initial main).exec run (rotating p call) = some next ∧
      Rotated settings run next p call := by
  have hbegin : (processes settings initial main).step run (.begin p call) =
      some (run.set p ⟨some file, .sizing call⟩) := by
    simp only [processes, hholder]
  have hsize : (processes settings initial main).step (run.set p ⟨some file, .sizing call⟩) (.size p) =
      some ((run.set p ⟨some file, .sizing call⟩).set p ⟨none, .renaming call⟩) := by
    simp only [processes, holder_set, Processes.size]
    exact congrArg some (if_pos hfull)
  let sized := (run.set p ⟨some file, .sizing call⟩).set p ⟨none, .renaming call⟩
  have hrename : (processes settings initial main).step sized (.rename p) =
      some (sized.rename settings p call) := by
    simp only [processes, sized, holder_set]
  let renamed := sized.rename settings p call
  have hreopen : (processes settings initial main).step renamed (.reopen p true) =
      some (renamed.reopen settings p true (.writing call)) := by
    simp only [processes, renamed, Processes.rename, holder_set]
  let opened := renamed.reopen settings p true (.writing call)
  have hwrite : (processes settings initial main).step opened (.write p) =
      some (opened.write settings p call (some (renamed.dir.openAppend settings.logFilename).2)) := by
    simp only [processes, opened, Processes.reopen, if_true, holder_set]
  have hexec : (processes settings initial main).exec run (rotating p call) =
      some (opened.write settings p call (some (renamed.dir.openAppend settings.logFilename).2)) := by
    simp only [rotating, Transition.System.exec, hbegin, Option.bind_some, hsize]
    rw [hrename, Option.bind_some, hreopen, Option.bind_some, hwrite, Option.bind_some]
  refine ⟨_, hexec, fun q holder hne hq => holder_of_exec hexec (fun op hop => ?_) hq, rfl, rfl,
    length_le_of_exec hexec⟩
  have hactor : op.actor = p := by
    simp only [rotating, List.mem_cons, List.not_mem_nil, or_false] at hop
    rcases hop with rfl | rfl | rfl | rfl | rfl <;> rfl
  exact hactor ▸ hne.symm

/-- **Two rotations within a second lose the log.**  In every state of a server where two processes have
the full log file open: when one of them rotates it and the other one writes its next record within the
same second, whatever other processes do in between short of a rename, then the second one rotates
again, and the file with all it held is in the directory no longer. -/
theorem second_rotation_loses (hinitial : initial.WellFormed)
    (h : (processes settings initial main).Reachable Transition.anyStep run) {p q : pid}
    (hpq : p ≠ q) (hp : run.holder p = some ⟨some file, .idle⟩)
    (hq : run.holder q = some ⟨some file, .idle⟩)
    (hactive : run.dir.names settings.logFilename = some file)
    (hfull : settings.maxFilesize ≤ (run.dir.data file).length) (call : Call) :
    ∃ rotated, (processes settings initial main).exec run (rotating p call) = some rotated ∧
      ∀ ops later, (processes settings initial main).Run (Elsewhere q) rotated ops later →
        ∀ call', settings.target call' = settings.target call →
          ∃ final, (processes settings initial main).exec later (rotating q call') = some final ∧
            file ∈ final.replaced ∧ ∀ name, final.dir.names name ≠ some file := by
  obtain ⟨rotated, hexec, hrotated⟩ := exists_rotated hp hfull call
  refine ⟨rotated, hexec, fun ops later hops call' hsame => ?_⟩
  have hholds : HoldsRenamed settings rotated q file (settings.target call) := by
    refine ⟨hrotated.others q _ hpq.symm hq, hfull.trans (hrotated.length_le file), ?_, ?_⟩
    · rw [hrotated.names]
      apply Directory.names_openAppend
      rw [Directory.names_rename hactive, if_pos rfl]
    · rw [hrotated.names]
      exact ⟨_, Directory.names_openAppend_self ..⟩
  have hlater := hholds.elsewhere hops
  obtain ⟨final, hfinal, hagain⟩ := exists_rotated hlater.holder hlater.full call'
  have hreplaced : file ∈ final.replaced := by
    rw [hagain.replaced, hsame]
    obtain ⟨other, hother⟩ := hlater.active
    refine List.mem_append_right _ (Option.mem_toList.mpr ?_)
    simp only [Directory.replacedBy, hother, hlater.renamed]
  have hreachable : (processes settings initial main).Reachable Transition.anyStep final :=
    ((h.exec (Transition.System.permits_anyStep _ _) hexec).exec
      (Transition.System.permits_anyStep _ _) hops.exec).exec
        (Transition.System.permits_anyStep _ _) hfinal
  have hkept := kept_of_reachable hinitial hreachable
  exact ⟨final, hfinal, hreplaced, (hkept.replaced file hreplaced).2⟩

end Rotations

/-! ## A server with one child -/

def emptyDirectory : Directory := ⟨fun _ => none, fun _ => [], 0⟩

theorem wellFormed_emptyDirectory : emptyDirectory.WellFormed :=
  ⟨fun _ _ h => absurd h (by simp [emptyDirectory]),
    fun _ _ _ h => absurd h (by simp [emptyDirectory]), fun _ _ => rfl⟩

/-- A log file that is full with its first record. -/
def oneByte : Settings := ⟨firstHour, ascii "server.log", by decide, 1⟩

/-- `main` opens the log file, forks and writes a record. -/
def forkAndLog : List (ProcessOp Bool) :=
  [.setLogfile false true, .fork false true, .begin false (logAt 7), .size false, .write false]

theorem records_kept_two : ∃ run : Processes Bool,
    (processes oneByte emptyDirectory false).exec (.start emptyDirectory false)
        (forkAndLog ++ rotating true (logAt 7) ++ rotating false (logAt 8)) = some run ∧
      run.written.length = 3 ∧ run.replaced = [] ∧
      ∃! name, run.dir.names name = some 0 := by
  let run := (processes oneByte emptyDirectory false).exec (.start emptyDirectory false)
        (forkAndLog ++ rotating true (logAt 7) ++ rotating false (logAt 8))
  have hrun : run.map (fun run => ((run.written.map Entry.file), run.replaced)) =
      some ([0, 1, 2], []) := by
    decide +kernel
  obtain ⟨final, hexec, hboth⟩ := Option.map_eq_some_iff.mp hrun
  obtain ⟨hfiles, hreplaced⟩ := Prod.mk.inj hboth
  have hreachable := Transition.System.reachable_of_exec rfl hexec
  obtain ⟨-, hnames, -⟩ := records_kept wellFormed_emptyDirectory hreachable
  refine ⟨final, hexec, ?_, hreplaced, (hnames 0 (Or.inr ?_)).mpr ?_⟩
  · rw [← List.length_map Entry.file, hfiles]
    rfl
  · have hmem : 0 ∈ final.written.map Entry.file := by
      rw [hfiles]
      decide
    exact List.mem_map.mp hmem
  · rw [hreplaced]
    exact List.not_mem_nil

theorem second_rotation_loses_at_once : ∃ run rotated final : Processes Bool,
    (processes oneByte emptyDirectory false).exec (.start emptyDirectory false) forkAndLog =
        some run ∧
      run.written.map Entry.file = [0] ∧
      (processes oneByte emptyDirectory false).exec run (rotating false (logAt 7)) = some rotated ∧
      (processes oneByte emptyDirectory false).exec rotated (rotating true (logAt 7)) = some final ∧
      ∀ name, final.dir.names name ≠ some 0 := by
  have hrun : ((processes oneByte emptyDirectory false).exec (.start emptyDirectory false)
      forkAndLog).map (fun run => ((run.holder false, run.holder true),
        (run.written.map Entry.file, run.dir.names oneByte.logFilename),
        decide (oneByte.maxFilesize ≤ (run.dir.data 0).length))) =
      some ((some ⟨some 0, .idle⟩, some ⟨some 0, .idle⟩), ([0], some 0), true) := by
    decide +kernel
  obtain ⟨run, hexec, hall⟩ := Option.map_eq_some_iff.mp hrun
  simp only [Prod.mk.injEq] at hall
  obtain ⟨⟨hparent, hchild⟩, ⟨hwritten, hactive⟩, hfull⟩ := hall
  have hreachable := Transition.System.reachable_of_exec rfl hexec
  obtain ⟨rotated, hrotated, hlost⟩ := second_rotation_loses wellFormed_emptyDirectory hreachable
    (by decide : false ≠ true) hparent hchild hactive (of_decide_eq_true hfull) (logAt 7)
  obtain ⟨final, hfinal, -, hnames⟩ :=
    hlost [] rotated (Transition.System.Run.nil rotated) (logAt 7) rfl
  exact ⟨run, rotated, final, hexec, hwritten, hrotated, hfinal, hnames⟩

end Sok.Logger
