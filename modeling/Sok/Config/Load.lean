import Sok.Config.Pointers
import Sok.Foundation.Transition

/-!
# Loading the configuration

`Config::load` parses into a new `YamlReader` and assigns it only when the constructor has
returned.  So an exception, wherever in the file it is thrown, leaves the configuration that
was stored.  A file that cannot be opened is no exception: `parseFile` reports it on
`std::cerr`, and the empty data are assigned.
-/

namespace Sok

open Yaml (Failure start linesOf parseLine parseLines parseFile exists_ok_of_map)

/-- The configuration of a `Config` that has loaded nothing. -/
def YamlReader.empty : YamlReader := ⟨[]⟩

/-! ## Files -/

/-- What `parseFile` finds at the name of the file. -/
inductive ConfigFile
  /-- It cannot be opened. -/
  | missing
  /-- Reading fails behind these bytes; behind none of them where the name is that of a
  directory. -/
  | breaksOff (read : Bytes)
  | contents (text : Bytes)

/-- The lines that end before reading fails. -/
def wholeLines (read : Bytes) : Bytes :=
  read.rdropWhile (· != lf)

namespace ConfigFile

/-- The bytes of the lines that `std::getline` returns. -/
def text : ConfigFile → Option Bytes
  | missing => none
  | breaksOff read => some (wholeLines read)
  | contents text => some text

/-- `YamlReader::YamlReader(filePath)`. -/
def parse (file : ConfigFile) : Except Failure YamlReader :=
  parseFile file.text

/-- The lines above one of the file are read, and the exception is thrown there. -/
def FailsAt (file : ConfigFile) (message : Bytes) : Prop :=
  ∃ text front raw rest s, file.text = some text ∧ linesOf text = front ++ raw :: rest ∧
    parseLines (raw :: rest) front start = .ok s ∧
    parseLine rest raw s = .error (.throws message)

/-- Reading fails before the end of the file. -/
def BreaksOff (file : ConfigFile) : Prop :=
  ∃ read, file = .breaksOff read

/-- What is stored behind a call that throws nothing, where reading does not break off. -/
inductive Stores : ConfigFile → YamlReader → Prop
  | missing : Stores .missing .empty
  | contents {text : Bytes} {reader : YamlReader} (hparse : parseFile (some text) = .ok reader) :
      Stores (.contents text) reader

end ConfigFile

/-! ## Config -/

/-- `Config::load`: the stored configuration behind it, and the text of the exception that leaves
it.  There is no result where the behaviour of `parseFile` is undefined. -/
def load (config : YamlReader) (file : ConfigFile) : Option (YamlReader × Option Bytes) :=
  match file.parse with
  | .ok reader => some (reader, none)
  | .error (.throws message) => some (config, some message)
  | .error .undefined => none

/-- The stored configuration is the complete parse of the file, or the one before. -/
def Atomic (config : YamlReader) (file : ConfigFile) (loaded : YamlReader) : Prop :=
  (∃ text, file = .contents text ∧ parseFile (some text) = .ok loaded) ∨ loaded = config

/-- The configuration of a process that loads files one after the other, and catches what is
thrown. -/
def loading : Transition.System YamlReader ConfigFile where
  init config := config = .empty
  step config file := (load config file).map Prod.fst

/-! ## Where an exception is thrown -/

/-- The loop fails at one line, and has read all lines above it. -/
theorem exists_line_of_error {more lines : List Bytes} {s : Yaml.State} {failure : Failure}
    (h : parseLines more lines s = .error failure) :
    ∃ front raw rest t, lines = front ++ raw :: rest ∧
      parseLines (raw :: rest ++ more) front s = .ok t ∧
      parseLine (rest ++ more) raw t = .error failure := by
  induction lines generalizing s with
  | nil => exact absurd h (by simp [parseLines])
  | cons raw rest ih =>
      cases hline : parseLine (rest ++ more) raw s with
      | error other =>
          rw [parseLines, hline] at h
          obtain rfl : other = failure := Except.error.inj h
          exact ⟨[], raw, rest, s, rfl, rfl, hline⟩
      | ok next =>
          rw [parseLines, hline] at h
          obtain ⟨front, last, behind, t, hrest, hfront, hlast⟩ := ih h
          refine ⟨raw :: front, last, behind, t, by rw [hrest]; rfl, ?_, hlast⟩
          rw [hrest, List.append_assoc] at hline
          rw [parseLines, hline]
          exact hfront

namespace ConfigFile

theorem failsAt_of_throws {file : ConfigFile} {message : Bytes}
    (h : file.parse = .error (.throws message)) : file.FailsAt message := by
  unfold parse at h
  cases htext : file.text with
  | none =>
      rw [htext] at h
      exact absurd h (by simp [parseFile])
  | some text =>
      rw [htext, parseFile] at h
      cases hlines : parseLines [] (linesOf text) start with
      | ok s =>
          rw [hlines] at h
          exact absurd h (by simp [Except.map])
      | error failure =>
          rw [hlines] at h
          obtain rfl : failure = .throws message := Except.error.inj h
          obtain ⟨front, raw, rest, s, hsplit, hfront, hraw⟩ := exists_line_of_error hlines
          rw [List.append_nil] at hfront hraw
          exact ⟨text, front, raw, rest, s, htext, hsplit, hfront, hraw⟩

theorem parse_of_failsAt {file : ConfigFile} {message : Bytes} (h : file.FailsAt message) :
    file.parse = .error (.throws message) := by
  obtain ⟨text, front, raw, rest, s, htext, hsplit, hfront, hraw⟩ := h
  have hlines : parseLines [] (front ++ raw :: rest) start = .error (.throws message) := by
    rw [Yaml.parseLines_append, List.append_nil, hfront]
    show parseLines [] (raw :: rest) s = _
    rw [parseLines, List.append_nil, hraw]
    rfl
  rw [parse, htext, parseFile, hsplit, hlines]
  rfl

theorem stores_of_parse {file : ConfigFile} {reader : YamlReader} (h : file.parse = .ok reader)
    (hends : ¬ file.BreaksOff) : file.Stores reader := by
  cases file with
  | missing =>
      obtain rfl : YamlReader.empty = reader := Except.ok.inj h
      exact .missing
  | breaksOff read => exact absurd ⟨read, rfl⟩ hends
  | contents text => exact .contents h

end ConfigFile

/-! ## One call, and runs -/

/-- The call throws and stores nothing, or stores what it has parsed. -/
theorem load_cases {config : YamlReader} {file : ConfigFile}
    {loaded : YamlReader × Option Bytes} (h : load config file = some loaded) :
    (∃ message, file.FailsAt message ∧ loaded = (config, some message)) ∨
      ∃ reader, file.parse = .ok reader ∧ loaded = (reader, none) := by
  unfold load at h
  split at h
  · rename_i reader hparse
    exact Or.inr ⟨reader, hparse, (Option.some.inj h).symm⟩
  · rename_i message hparse
    exact Or.inl ⟨message, ConfigFile.failsAt_of_throws hparse, (Option.some.inj h).symm⟩
  · exact absurd h (by simp)

/-- So every configuration that is ever stored is what one of the files parses to. -/
theorem reachable_is_parse {config : YamlReader} (h : loading.Reachable Transition.anyStep config) :
    ∃ file : ConfigFile, file.parse = .ok config := by
  apply h.invariant
  · rintro state rfl
    exact ⟨.missing, rfl⟩
  · intro state file next _ hstep hstate
    obtain ⟨loaded, hload, rfl⟩ := Option.map_eq_some_iff.mp hstep
    rcases load_cases hload with hfails | hstores
    · obtain ⟨message, -, rfl⟩ := hfails
      exact hstate
    · obtain ⟨reader, hparse, rfl⟩ := hstores
      exact ⟨file, hparse⟩

/-! ## All states of the file -/

/-- `a: 1`. -/
def oldConfig : YamlReader := ⟨[(ascii "a", .int 1)]⟩

/-- Two lines that are stored, and one that has no colon. -/
def malformedFile : ConfigFile :=
  .contents (ascii "a: 2\nb: 3\nc\n")

/-- Of a file that cannot be parsed nothing is stored; of one that can be read to its end and be
parsed, everything. -/
theorem load_keeps_or_stores {config : YamlReader} {file : ConfigFile}
    {loaded : YamlReader × Option Bytes} (h : load config file = some loaded) :
    (∃ message, file.FailsAt message ∧ loaded = (config, some message)) ∨
      loaded.2 = none ∧ (∀ message, ¬ file.FailsAt message) ∧
        (¬ file.BreaksOff → file.Stores loaded.1) := by
  rcases load_cases h with hfails | ⟨reader, hparse, rfl⟩
  · exact Or.inl hfails
  · refine Or.inr ⟨rfl, fun message hfails => ?_, ConfigFile.stores_of_parse hparse⟩
    have herror := ConfigFile.parse_of_failsAt hfails
    exact absurd (hparse.symm.trans herror) (by simp)

theorem load_keeps_malformed :
    load oldConfig malformedFile = some (oldConfig, some (ascii "Invalid line: c")) ∧
      ((∃ message, malformedFile.FailsAt message ∧
          (oldConfig, some (ascii "Invalid line: c")) = (oldConfig, some message)) ∨
        some (ascii "Invalid line: c") = none ∧ (∀ message, ¬ malformedFile.FailsAt message) ∧
          (¬ malformedFile.BreaksOff → malformedFile.Stores oldConfig)) :=
  ⟨rfl, load_keeps_or_stores rfl⟩

/-- The configuration is lost when the file is not there. -/
theorem missing_file_empties_config :
    ¬ ∀ config file loaded, load config file = some loaded → Atomic config file loaded.1 := by
  intro hatomic
  rcases hatomic oldConfig .missing (.empty, none) rfl with ⟨text, hfile, -⟩ | hsame
  · exact absurd hfile (by simp)
  · exact absurd (congrArg YamlReader.data hsame) (by simp [YamlReader.empty, oldConfig])

end Sok
