import Mathlib.Data.List.Nodup
import Mathlib.Logic.Function.Basic
import Sok.Foundation.Transition
import Sok.Text

/-!
# The log file and its rotation

`Logger` appends each record to the log file.  Before it does so, it looks at the
size of the file, and when the limit is reached it closes the file, renames it and
opens a new one under the old name.

The new name is the old one with the time in seconds.  A second rotation within
the same second renames to the same name, and `rename` replaces what is there.
`FreshName` is the condition that this does not happen; it is exactly the condition
under which no record is lost (`rotation_lossless_iff`).

## Strategy

Two invariants exclude each other: nothing is lost so far (`Lossless`), and what is stored
is too short for what was written (`Short`).  A call whose new name is fresh keeps the
first; one whose name is that of a rotated file leads from the first to the second, because
the file replaced was not empty; and no call leads back, since what is stored grows by no
more than the record (`Short.log`).  So a run is lossless exactly when every rotation in it
is fresh.
-/

namespace Sok.Logger

/-! ## Texts -/

/-- The broken-down local time that `localtime` makes of the clock. -/
structure Tm where
  year : ℕ
  month : ℕ
  day : ℕ
  hour : ℕ
  minute : ℕ
  second : ℕ
  deriving DecidableEq, Repr

/-- The two-digit conversions of `strftime`. -/
def twoDigits (n : ℕ) : Bytes :=
  if n < 10 then 48 :: decimal n else decimal n

/-- `now`: the format `%Y-%m-%d %H:%M:%S`. -/
def now (tm : Tm) : Bytes :=
  decimal tm.year ++ ascii "-" ++ twoDigits tm.month ++ ascii "-" ++ twoDigits tm.day ++
    ascii " " ++ twoDigits tm.hour ++ ascii ":" ++ twoDigits tm.minute ++ ascii ":" ++
    twoDigits tm.second

/-- `now_for_filename`: the format `%Y%m%d_%H%M%S`. -/
def nowForFilename (tm : Tm) : Bytes :=
  decimal tm.year ++ twoDigits tm.month ++ twoDigits tm.day ++ ascii "_" ++
    twoDigits tm.hour ++ twoDigits tm.minute ++ twoDigits tm.second

inductive Level
  | info
  | warning
  | error
  deriving DecidableEq, Repr

def levelStr : Level → Bytes
  | .info => ascii "INFO"
  | .warning => ascii "WARN"
  | .error => ascii "ERROR"

/-- A call of `log`. -/
structure Call where
  level : Level
  msg : Bytes
  /-- The file and the line, for the overload that the macros use. -/
  location : Option (Bytes × ℕ)
  /-- The clock when the name of a rotated file is made, if one is. -/
  rotateTime : ℤ
  /-- The clock when the record is made. -/
  time : ℤ
  deriving DecidableEq, Repr

variable (localtime : ℤ → Tm)

/-- The record that a call writes. -/
def record (call : Call) : Bytes :=
  now (localtime call.time) ++ ascii " [" ++ levelStr call.level ++ ascii "] " ++
    (match call.location with
      | some (file, line) => ascii "[" ++ file ++ ascii ":" ++ decimal line ++ ascii "] "
      | none => []) ++
    call.msg ++ [lf]

/-! ## Files -/

/-- The files of the directory. -/
abbrev Files := Bytes → Option Bytes

/-- The bytes stored under a name. -/
def stored (files : Files) (name : Bytes) : Bytes := (files name).getD []

/-- Open for appending; the file is made when there is none. -/
def openAppend (files : Files) (name : Bytes) : Files :=
  Function.update files name (some (stored files name))

/-- Write at the end. -/
def appendTo (files : Files) (name bytes : Bytes) : Files :=
  Function.update files name (some (stored files name ++ bytes))

/-- `rename`, which replaces a file that has the new name. -/
def rename (files : Files) (old new : Bytes) : Files :=
  Function.update (Function.update files old none) new (files old)

/-! ## The logger -/

/-- The members of `Logger`, with the directory it writes to. -/
structure State where
  files : Files
  logFilename : Bytes
  isOpen : Bool
  maxFilesize : ℕ

/-- The logger as it is constructed. -/
def new (files : Files) : State := ⟨files, [], false, 10 * 1024 * 1024⟩

def setMaxFilesize (s : State) (bytes : ℕ) : State := { s with maxFilesize := bytes }

/-- `set_logfile`; with an empty name nothing is opened. -/
def setLogfile (s : State) (filename : Bytes) : State :=
  if filename = [] then { s with logFilename := filename, isOpen := false }
  else { s with
    files := openAppend s.files filename
    logFilename := filename
    isOpen := true }

/-- `std::string::rfind`: the position of the last occurrence. -/
def rfind (pat s : Bytes) : Option ℕ :=
  (List.range (s.length + 1)).reverse.find? fun i => pat.isPrefixOf (s.drop i)

/-- The name for a file that is rotated at `ts`. -/
def newname (logFilename ts : Bytes) : Bytes :=
  match rfind (ascii ".log") logFilename with
  | some dot =>
      if dot = logFilename.length - 4 then logFilename.take dot ++ ascii "_" ++ ts ++ ascii ".log"
      else logFilename ++ ascii "_" ++ ts
  | none => logFilename ++ ascii "_" ++ ts

/-- The test of `check_and_rotate`. -/
def full (s : State) : Bool :=
  s.logFilename ≠ [] && s.isOpen && s.maxFilesize ≤ (stored s.files s.logFilename).length

/-- `check_and_rotate`. -/
def checkAndRotate (s : State) (ts : Bytes) : State :=
  if full s then
    { s with
      files := openAppend (rename s.files s.logFilename (newname s.logFilename ts)) s.logFilename }
  else s

/-- `log`. -/
def log (s : State) (call : Call) : State :=
  let s := checkAndRotate s (nowForFilename (localtime call.rotateTime))
  if s.isOpen then { s with files := appendTo s.files s.logFilename (record localtime call) }
  else s

/-! ## Runs -/

/-- A logger with its history. -/
structure Run where
  state : State
  /-- The rotated files in the order of their rotation; a name that is used again
  stands where it was used last, since there is one file with it. -/
  rotated : List Bytes
  /-- The records written. -/
  written : List Bytes

namespace Run

/-- The name a rotation by this call gives. -/
def target (run : Run) (call : Call) : Bytes :=
  newname run.state.logFilename (nowForFilename (localtime call.rotateTime))

/-- A call of `log`, with what it adds to the history. -/
def log (run : Run) (call : Call) : Run where
  state := Logger.log localtime run.state call
  rotated :=
    if full run.state then
      run.rotated.erase (run.target localtime call) ++ [run.target localtime call]
    else run.rotated
  written :=
    if run.state.isOpen then run.written ++ [record localtime call] else run.written

/-- The concatenation of the rotated files and the active one. -/
def kept (run : Run) : Bytes :=
  run.rotated.flatMap (stored run.state.files) ++ stored run.state.files run.state.logFilename

end Run

/-- The limit is set and the log file is opened, in any directory. -/
def start (files : Files) (maxFilesize : ℕ) (filename : Bytes) : Run where
  state := setLogfile (setMaxFilesize (new files) maxFilesize) filename
  rotated := []
  written := []

/-- The logger over all calls of `log`. -/
def system : Transition.System Run Call where
  init run := ∃ files maxFilesize filename,
    0 < maxFilesize ∧ run = start files maxFilesize filename
  step run call := some (run.log localtime call)

/-- **The condition.**  A call that rotates gives a name that no rotation gave
before, so it falls into a second of its own. -/
def FreshName (run : Run) (call : Call) : Prop :=
  full run.state = true → run.target localtime call ∉ run.rotated

instance (run : Run) (call : Call) : Decidable (FreshName localtime run call) :=
  inferInstanceAs (Decidable (_ → _))

variable {localtime}

/-! ## What is stored -/

section Stored

variable (files : Files)

@[simp] theorem stored_openAppend (name other : Bytes) :
    stored (openAppend files name) other = stored files other := by
  by_cases h : other = name
  · simp [stored, openAppend, h]
  · simp [stored, openAppend, Function.update_of_ne h]

@[simp] theorem stored_appendTo_self (name bytes : Bytes) :
    stored (appendTo files name bytes) name = stored files name ++ bytes := by
  simp [stored, appendTo]

theorem stored_appendTo_of_ne {name other : Bytes} (bytes : Bytes) (h : other ≠ name) :
    stored (appendTo files name bytes) other = stored files other := by
  simp [stored, appendTo, Function.update_of_ne h]

@[simp] theorem stored_rename_new (old new : Bytes) :
    stored (rename files old new) new = stored files old := by
  simp [stored, rename]

theorem stored_rename_old {old new : Bytes} (h : old ≠ new) :
    stored (rename files old new) old = [] := by
  simp [stored, rename, Function.update_of_ne h]

theorem stored_rename_of_ne {old new other : Bytes} (hold : other ≠ old) (hnew : other ≠ new) :
    stored (rename files old new) other = stored files other := by
  simp [stored, rename, Function.update_of_ne hnew, Function.update_of_ne hold]

end Stored

theorem newname_ne (logFilename ts : Bytes) : newname logFilename ts ≠ logFilename := by
  have hlonger : logFilename.length < (newname logFilename ts).length := by
    unfold newname
    split
    · split
      · rename_i hdot
        simp only [hdot, List.length_append, List.length_take, ascii]
        simp
        omega
      · simp [ascii]
    · simp [ascii]
  intro h
  rw [h] at hlonger
  exact absurd hlonger (Nat.lt_irrefl _)

/-! ## One call -/

/-- The rotated files are distinct, none is the log file, and none is empty. -/
structure Sound (run : Run) : Prop where
  positive : 0 < run.state.maxFilesize
  nodup : run.rotated.Nodup
  ne : ∀ name ∈ run.rotated, name ≠ run.state.logFilename
  nonempty : ∀ name ∈ run.rotated, stored run.state.files name ≠ []

section Call

variable {run : Run} {call : Call}

theorem checkAndRotate_isOpen (s : State) (ts : Bytes) :
    (checkAndRotate s ts).isOpen = s.isOpen := by
  unfold checkAndRotate
  split <;> rfl

theorem checkAndRotate_logFilename (s : State) (ts : Bytes) :
    (checkAndRotate s ts).logFilename = s.logFilename := by
  unfold checkAndRotate
  split <;> rfl

variable (localtime run call) in
/-- A call up to the point where the record is made. -/
def Run.rotate : Run where
  state := checkAndRotate run.state (nowForFilename (localtime call.rotateTime))
  rotated := (run.log localtime call).rotated
  written := run.written

/-- Without a rotation nothing happens up to there. -/
theorem Run.rotate_of_not_full (hfull : full run.state = false) :
    run.rotate localtime call = run := by
  simp [Run.rotate, Run.log, checkAndRotate, hfull]

theorem stored_rotate (hfull : full run.state = true) (name : Bytes) :
    stored (run.rotate localtime call).state.files name =
      if name = run.target localtime call then stored run.state.files run.state.logFilename
      else if name = run.state.logFilename then [] else stored run.state.files name := by
  have hfiles : (run.rotate localtime call).state.files =
      openAppend (rename run.state.files run.state.logFilename (run.target localtime call))
        run.state.logFilename := by
    simp [Run.rotate, Run.target, checkAndRotate, hfull]
  rw [hfiles, stored_openAppend]
  by_cases htarget : name = run.target localtime call
  · rw [if_pos htarget, htarget, stored_rename_new]
  · rw [if_neg htarget]
    by_cases hactive : name = run.state.logFilename
    · rw [if_pos hactive, hactive]
      exact stored_rename_old _ (newname_ne _ _).symm
    · rw [if_neg hactive, stored_rename_of_ne _ hactive htarget]

theorem rotated_rotate (hfull : full run.state = true) :
    (run.rotate localtime call).rotated =
      run.rotated.erase (run.target localtime call) ++ [run.target localtime call] := by
  simp [Run.rotate, Run.log, hfull]

theorem Sound.stored_active_ne_nil (h : Sound run) (hfull : full run.state = true) :
    stored run.state.files run.state.logFilename ≠ [] := by
  intro hnil
  simp only [full, hnil, List.length_nil, Bool.and_eq_true, decide_eq_true_eq] at hfull
  have hpositive := h.positive
  omega

theorem Sound.stored_rotate_erase (h : Sound run) (hfull : full run.state = true) {name : Bytes}
    (hname : name ∈ run.rotated.erase (run.target localtime call)) :
    stored (run.rotate localtime call).state.files name = stored run.state.files name := by
  obtain ⟨hne, hmem⟩ := h.nodup.mem_erase_iff.mp hname
  rw [stored_rotate hfull, if_neg hne, if_neg (h.ne name hmem)]

theorem Sound.rotate (h : Sound run) : Sound (run.rotate localtime call) := by
  cases hfull : full run.state with
  | false => rwa [Run.rotate_of_not_full hfull]
  | true =>
      have hfilename : (run.rotate localtime call).state.logFilename = run.state.logFilename :=
        checkAndRotate_logFilename _ _
      constructor
      case positive =>
        have hmax : (run.rotate localtime call).state.maxFilesize = run.state.maxFilesize := by
          simp [Run.rotate, checkAndRotate, hfull]
        exact hmax ▸ h.positive
      case nodup =>
        rw [rotated_rotate hfull]
        have hne : List.Disjoint (run.rotated.erase (run.target localtime call))
            [run.target localtime call] := by
          simp [h.nodup.mem_erase_iff]
        exact List.Nodup.append (h.nodup.erase _) (List.nodup_singleton _) hne
      case ne =>
        intro name hname
        rw [hfilename]
        rw [rotated_rotate hfull, List.mem_append, List.mem_singleton] at hname
        rcases hname with hname | rfl
        · exact h.ne name (List.mem_of_mem_erase hname)
        · exact newname_ne _ _
      case nonempty =>
        intro name hname
        rw [rotated_rotate hfull, List.mem_append, List.mem_singleton] at hname
        rcases hname with hname | rfl
        · rw [h.stored_rotate_erase hfull hname]
          exact h.nonempty name (List.mem_of_mem_erase hname)
        · rw [stored_rotate hfull, if_pos rfl]
          exact h.stored_active_ne_nil hfull

/-- Behind a rotation the log file's bytes follow those of the other rotated files. -/
theorem Sound.kept_rotate (h : Sound run) (hfull : full run.state = true) :
    (run.rotate localtime call).kept =
      (run.rotated.erase (run.target localtime call)).flatMap (stored run.state.files) ++
        stored run.state.files run.state.logFilename := by
  have hfilename : (run.rotate localtime call).state.logFilename = run.state.logFilename :=
    checkAndRotate_logFilename _ _
  have hactive : stored (run.rotate localtime call).state.files run.state.logFilename = [] := by
    have hne : run.state.logFilename ≠ run.target localtime call := (newname_ne _ _).symm
    rw [stored_rotate hfull, if_neg hne, if_pos rfl]
  have hothers : (run.rotated.erase (run.target localtime call)).flatMap
      (stored (run.rotate localtime call).state.files) =
        (run.rotated.erase (run.target localtime call)).flatMap (stored run.state.files) :=
    List.flatMap_congr fun name hname => h.stored_rotate_erase hfull hname
  rw [Run.kept, hfilename, hactive, rotated_rotate hfull, List.flatMap_append, hothers,
    List.flatMap_singleton, stored_rotate hfull, if_pos rfl, List.append_nil]

/-- A rotation under a new name loses nothing. -/
theorem Sound.kept_rotate_fresh (h : Sound run) (hfresh : FreshName localtime run call) :
    (run.rotate localtime call).kept = run.kept := by
  cases hfull : full run.state with
  | false => rw [Run.rotate_of_not_full hfull]
  | true => rw [h.kept_rotate hfull, List.erase_of_not_mem (hfresh hfull), Run.kept]

/-- A rotation under the name of a rotated file loses that file. -/
theorem Sound.kept_rotate_stale (h : Sound run) (hstale : ¬ FreshName localtime run call) :
    (run.rotate localtime call).kept.length < run.kept.length := by
  obtain ⟨hfull, hmem⟩ : full run.state = true ∧ run.target localtime call ∈ run.rotated := by
    simpa [FreshName] using hstale
  have hlost : 0 < (stored run.state.files (run.target localtime call)).length :=
    List.length_pos_iff.mpr (h.nonempty _ hmem)
  have hperm : (run.rotated.flatMap (stored run.state.files)).length =
      (stored run.state.files (run.target localtime call)).length +
        ((run.rotated.erase (run.target localtime call)).flatMap
          (stored run.state.files)).length := by
    rw [((List.perm_cons_erase hmem).flatMap_right _).length_eq, List.flatMap_cons,
      List.length_append]
  rw [h.kept_rotate hfull, Run.kept, List.length_append, List.length_append, hperm]
  omega

variable (localtime run call) in
/-- What the call adds to the log file. -/
def Run.added : Bytes := if run.state.isOpen then record localtime call else []

/-- The record goes to the end of the log file; the rotated files do not change. -/
theorem Sound.log (h : Sound run) :
    Sound (run.log localtime call) ∧
      (run.log localtime call).kept =
        (run.rotate localtime call).kept ++ run.added localtime call := by
  have hrotate : Sound (run.rotate localtime call) := h.rotate
  have hopen : (run.rotate localtime call).state.isOpen = run.state.isOpen :=
    checkAndRotate_isOpen _ _
  cases hisOpen : run.state.isOpen with
  | false =>
      have heq : (run.log localtime call).state = (run.rotate localtime call).state := by
        simp only [Run.rotate] at hopen
        simp [Run.log, Run.rotate, Logger.log, hopen, hisOpen]
      refine ⟨⟨?_, hrotate.nodup, ?_, ?_⟩, ?_⟩
      · exact heq ▸ hrotate.positive
      · exact heq ▸ hrotate.ne
      · exact heq ▸ hrotate.nonempty
      · simp only [Run.kept, heq, Run.added, hisOpen, Bool.false_eq_true, if_false,
          List.append_nil]
        rfl
  | true =>
      have heq : (run.log localtime call).state =
          { (run.rotate localtime call).state with
            files := appendTo (run.rotate localtime call).state.files
              (run.rotate localtime call).state.logFilename (record localtime call) } := by
        simp only [Run.rotate] at hopen
        simp [Run.log, Run.rotate, Logger.log, hopen, hisOpen]
      have hrotated : (run.log localtime call).rotated = (run.rotate localtime call).rotated := rfl
      have hothers : ∀ name ∈ (run.rotate localtime call).rotated,
          stored (run.log localtime call).state.files name =
            stored (run.rotate localtime call).state.files name := by
        intro name hname
        rw [heq]
        exact stored_appendTo_of_ne _ _ (hrotate.ne name hname)
      refine ⟨⟨?_, hrotate.nodup, ?_, ?_⟩, ?_⟩
      · rw [heq]
        exact hrotate.positive
      · rw [heq]
        exact hrotate.ne
      · intro name hname
        rw [hothers name hname]
        exact hrotate.nonempty name hname
      · have hactive : stored (run.log localtime call).state.files
            (run.log localtime call).state.logFilename =
              stored (run.rotate localtime call).state.files
                (run.rotate localtime call).state.logFilename ++ record localtime call := by
          rw [heq]
          exact stored_appendTo_self _ _ _
        rw [Run.kept, Run.kept, hactive, hrotated, List.flatMap_congr hothers, Run.added, hisOpen,
          if_pos rfl, List.append_assoc]

end Call

/-! ## All calls -/

/-- Each record is there once and in order, behind what the log file held before. -/
def Lossless (initial : Bytes) (run : Run) : Prop :=
  run.kept = initial ++ run.written.flatten

/-- Something is missing. -/
def Short (initial : Bytes) (run : Run) : Prop :=
  run.kept.length < (initial ++ run.written.flatten).length

theorem Short.not_lossless {initial : Bytes} {run : Run} (h : Short initial run) :
    ¬ Lossless initial run :=
  fun hlossless => absurd (congrArg List.length hlossless) (Nat.ne_of_lt h)

theorem written_log (run : Run) (call : Call) :
    (run.log localtime call).written.flatten =
      run.written.flatten ++ run.added localtime call := by
  unfold Run.added
  cases hopen : run.state.isOpen <;> simp [Run.log, hopen]

section Calls

variable {initial : Bytes} {run : Run} {call : Call}

theorem Lossless.log (hsound : Sound run) (hfresh : FreshName localtime run call)
    (h : Lossless initial run) : Lossless initial (run.log localtime call) := by
  calc (run.log localtime call).kept
      = (run.rotate localtime call).kept ++ run.added localtime call := hsound.log.2
    _ = run.kept ++ run.added localtime call := by rw [hsound.kept_rotate_fresh hfresh]
    _ = initial ++ run.written.flatten ++ run.added localtime call := by rw [h]
    _ = initial ++ (run.log localtime call).written.flatten := by
        rw [written_log, List.append_assoc]

theorem short_log (hsound : Sound run)
    (h : (run.rotate localtime call).kept.length < (initial ++ run.written.flatten).length) :
    Short initial (run.log localtime call) := by
  rw [Short, hsound.log.2, written_log, ← List.append_assoc, List.length_append,
    List.length_append]
  omega

theorem Lossless.short_log (hsound : Sound run) (hstale : ¬ FreshName localtime run call)
    (h : Lossless initial run) : Short initial (run.log localtime call) :=
  Logger.short_log hsound (h ▸ hsound.kept_rotate_stale hstale)

theorem Short.log (hsound : Sound run) (h : Short initial run) :
    Short initial (run.log localtime call) := by
  refine short_log hsound ?_
  by_cases hfresh : FreshName localtime run call
  · rwa [hsound.kept_rotate_fresh hfresh]
  · exact (hsound.kept_rotate_stale hfresh).trans h

end Calls

theorem Short.exec {initial : Bytes} {run final : Run} {calls : List Call} (hsound : Sound run)
    (h : Short initial run) (hexec : (system localtime).exec run calls = some final) :
    Short initial final := by
  induction calls generalizing run with
  | nil =>
      cases hexec
      exact h
  | cons call calls ih => exact ih hsound.log.1 (h.log hsound) hexec

/-- Over all calls: nothing is missing as long as every name is new, and from the
first call on that rotates to an old name something is. -/
theorem Lossless.exec {initial : Bytes} {run final : Run} {calls : List Call}
    (hsound : Sound run) (h : Lossless initial run)
    (hexec : (system localtime).exec run calls = some final) :
    Lossless initial final ↔ (system localtime).Permits (FreshName localtime) run calls := by
  induction calls generalizing run with
  | nil =>
      cases hexec
      exact ⟨fun _ => trivial, fun _ => h⟩
  | cons call calls ih =>
      by_cases hfresh : FreshName localtime run call
      · rw [ih hsound.log.1 (h.log hsound hfresh) hexec]
        constructor
        · intro hpermits
          refine ⟨hfresh, fun next hnext => ?_⟩
          obtain rfl := Option.some.inj hnext
          exact hpermits
        · exact fun hpermits => hpermits.2 _ rfl
      · constructor
        · intro hlossless
          have hshort : Short initial final :=
            (h.short_log hsound hfresh).exec hsound.log.1 hexec
          exact absurd hlossless hshort.not_lossless
        · exact fun hpermits => absurd hpermits.1 hfresh

theorem setLogfile_files (s : State) (filename name : Bytes) :
    stored (setLogfile s filename).files name = stored s.files name := by
  unfold setLogfile
  split <;> simp

theorem sound_start {files : Files} {maxFilesize : ℕ} (filename : Bytes) (h : 0 < maxFilesize) :
    Sound (start files maxFilesize filename) where
  positive := by
    unfold start setLogfile
    split <;> exact h
  nodup := List.nodup_nil
  ne _ hname := absurd hname (by simp [start])
  nonempty _ hname := absurd hname (by simp [start])

theorem lossless_start (files : Files) (maxFilesize : ℕ) (filename : Bytes) :
    Lossless (stored files filename) (start files maxFilesize filename) := by
  have hname : (setLogfile (setMaxFilesize (new files) maxFilesize) filename).logFilename =
      filename := by
    unfold setLogfile
    split <;> rfl
  have hwritten : (start files maxFilesize filename).written = [] := rfl
  rw [Lossless, Run.kept, hwritten]
  simp only [start, List.flatMap_nil, List.nil_append, List.flatten_nil, List.append_nil, hname]
  exact setLogfile_files _ _ _

/-- **Rotation loses nothing**, for any directory, name, limit, calls and clock, when
and only when every rotation falls into a second of its own. -/
theorem rotation_lossless_iff (localtime : ℤ → Tm) (files : Files) (maxFilesize : ℕ)
    (filename : Bytes) (calls : List Call) (hmax : 0 < maxFilesize) (final : Run)
    (hexec : (system localtime).exec (start files maxFilesize filename) calls = some final) :
    Lossless (stored files filename) final ↔
      (system localtime).Permits (FreshName localtime) (start files maxFilesize filename) calls :=
  (lossless_start files maxFilesize filename).exec (sound_start filename hmax) hexec

/-- A clock that never goes back, over all readings. -/
def NonDecreasing (calls : List Call) : Prop :=
  (calls.flatMap fun call => [call.rotateTime, call.time]).Pairwise (· ≤ ·)

instance (calls : List Call) : Decidable (NonDecreasing calls) :=
  inferInstanceAs (Decidable ((calls.flatMap fun _ => _).Pairwise _))

/-- The first hour of the epoch. -/
def firstHour (t : ℤ) : Tm := ⟨1970, 1, 1, 0, t.toNat / 60, t.toNat % 60⟩

/-- A message logged at the time. -/
def logAt (t : ℤ) : Call := ⟨.info, ascii "x", none, t, t⟩

theorem rotation_lossless_next_second :
    ∃ final, (system firstHour).exec (start (fun _ => none) 1 (ascii "server.log"))
        [logAt 7, logAt 7, logAt 8] = some final ∧
      final.rotated.length = 2 ∧ Lossless [] final := by
  refine ⟨_, rfl, by decide +kernel, ?_⟩
  exact (rotation_lossless_iff firstHour (fun _ => none) 1 (ascii "server.log")
    [logAt 7, logAt 7, logAt 8] (by decide) _ rfl).mpr (by decide +kernel)

/-- Two rotations within one second: the second replaces the first rotated file. -/
theorem rotation_within_a_second_loses :
    ¬ ∀ (localtime : ℤ → Tm) (files : Files) (maxFilesize : ℕ) (filename : Bytes)
        (calls : List Call) (final : Run),
      0 < maxFilesize → NonDecreasing calls →
      (system localtime).exec (start files maxFilesize filename) calls = some final →
        Lossless (stored files filename) final := by
  intro h
  have hlossless := h firstHour (fun _ => none) 1 (ascii "server.log") [logAt 7, logAt 7, logAt 7]
    _ (by decide) (by decide) rfl
  exact absurd (congrArg List.length hlossless) (by decide +kernel)

end Sok.Logger
