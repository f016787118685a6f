import StackHeap.Script
import StackHeap.Visualizer.Basic

/-! # Running from the command line

A run makes the log file and reads the script, if its options name them.  In plain mode the commands
come from the script if there is one and from the input otherwise; each outcome is written in a line,
then the final state.  Otherwise the commands of the script are run and the visualizer is shown.

The exit code is 0 if every command of a plain run was carried out, or if the visualizer was shown
until it quit, and 1 in all other cases.  If a file cannot be used nothing is written.

Files, input and terminal are reached through a `World`, so that a run is the same function wherever
they are.  Reading arguments into options is not part of it. -/

namespace StackHeap.CommandLine

/-- The options of a run. -/
structure Options where
  script : Option String := none
  plain : Bool := false
  config : Config := {}
  /-- The budget of the visualizer's history, in bytes. -/
  historyLimit : Nat := 16 * 1024 * 1024
  log : Option String := none
deriving DecidableEq, Repr, Inhabited

/-- What a run can reach. -/
structure World (m : Type → Type) where
  /-- Makes an empty log file, and tells whether it could. -/
  createLog : String → m Bool
  /-- The text of a script, if it can be read. -/
  scriptText : String → m (Option String)
  /-- The whole input. -/
  input : m String
  /-- Shows a visualizer until it quits, and tells whether there is a terminal for it. -/
  visualize : Visualizer → m Bool

/-- How a run ends. -/
structure Finish where
  code : Nat
  output : String := ""
  /-- What is told besides the output. -/
  complaint : String := ""
deriving DecidableEq, Repr, Inhabited

/-- The line that tells of an outcome. -/
def outcomeLine (o : Outcome) : String := (if o.ok then "ok: " else "error: ") ++ o.message

/-- Runs commands in turn and collects the outcomes. -/
def runCommands (s : Session) : List String → List Outcome × Session
  | [] => ([], s)
  | c :: cs =>
    let (s, o) := s.run c
    let (os, s) := runCommands s cs
    (o :: os, s)

/-- Runs commands in a new session, and writes of each. -/
def runPlain (config : Config) (commands : List String) : Finish :=
  let (outcomes, s) := runCommands (.new config) commands
  { code := if outcomes.all (·.ok) then 0 else 1
    output := String.join (outcomes.map fun o => outcomeLine o ++ "\n") ++ s.snapshot.text }

/-- A run that could not do something. -/
def failed (complaint : String) : Finish := { code := 1, complaint := complaint }

/-- Runs the commands of the script, or those of the input in plain mode without a script. -/
def runScript {m : Type → Type} [Monad m] (w : World m) (o : Options) (script : Option String) :
    m Finish := do
  if o.plain then
    let text ← match script with
      | some text => Pure.pure text
      | none => w.input
    return runPlain o.config (scriptCommands text)
  let session := (Session.new o.config).runAll (scriptCommands (script.getD ""))
  if ← w.visualize (.new session o.historyLimit) then return { code := 0 }
  return failed "terminal UI failed"

/-- Does what the options ask for. -/
def run {m : Type → Type} [Monad m] (w : World m) (o : Options) : m Finish := do
  if let some path := o.log then
    if !(← w.createLog path) then return failed ("failed to create log file '" ++ path ++ "'")
  match o.script with
  | none => runScript w o none
  | some path =>
    match ← w.scriptText path with
    | none => return failed ("failed to read script '" ++ path ++ "'")
    | some text => runScript w o (some text)

end StackHeap.CommandLine
