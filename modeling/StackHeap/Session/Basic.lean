import StackHeap.Session.Execute
import StackHeap.Snapshot
import StackHeap.Text.Blank

/-! # Sessions

A session is the memory together with the transcript of every command run so far.  Running a line
always has an outcome: a report if it was carried out, and otherwise an error, which leaves its
trace in the transcript only. -/

namespace StackHeap

open Store

/-- What came of a command. -/
structure Outcome where
  ok : Bool
  message : String
deriving DecidableEq, Repr, Inhabited

/-- A command and what came of it. -/
structure TranscriptEntry where
  command : String
  outcome : Outcome
deriving DecidableEq, Repr, Inhabited

/-- The two lines that tell of a command. -/
def TranscriptEntry.lines (e : TranscriptEntry) : List String :=
  ["> " ++ e.command, (if e.outcome.ok then "  ok: " else "  error: ") ++ e.outcome.message]

/-- The memory and what was done to it. -/
structure Session where
  memory : Memory
  /-- The commands run, the first one first. -/
  transcript : List TranscriptEntry := []
deriving DecidableEq, Repr, Inhabited

/-- A line without blanks at either end. -/
def trimmed (line : String) : String := String.ofList (Text.trim line.toList)

namespace Session

/-- The session at the start. -/
def new (config : Config) : Session := { memory := .new config }

/-- Runs a line. -/
def run (s : Session) (line : String) : Session × Outcome :=
  let (memory, outcome) := match execute line.toList s.memory with
    | .ok report memory => (memory, Outcome.mk true report.message)
    | .error e memory => (memory, Outcome.mk false e.message)
  (⟨memory, s.transcript ++ [⟨trimmed line, outcome⟩]⟩, outcome)

/-- Runs lines in turn. -/
def runAll (s : Session) (lines : List String) : Session :=
  lines.foldl (fun s line => (s.run line).1) s

/-- The memory as a user sees it. -/
def snapshot (s : Session) : Snapshot := .ofMemory s.memory

/-- The address that a variable of the innermost frame holds. -/
def referent? (s : Session) (name : String) : Option Address :=
  (s.memory.stack.current.slot? name).bind (·.value.referent?)

/-- The number of commands that were not carried out. -/
def failures (s : Session) : Nat := s.transcript.countP fun e => !e.outcome.ok

/-- The lines of the transcript. -/
def transcriptLines (s : Session) : List String := s.transcript.flatMap TranscriptEntry.lines

end Session

end StackHeap
