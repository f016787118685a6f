import StackHeap.CommandLine

/-! # What a plain run tells

A plain run collects the outcomes of its commands on its own.  They are the ones in the transcript of the
session that has run the same commands, so the output is the transcript without the commands, followed by
the state of that session, and the exit code says whether it counts any failures (`runPlain_eq`). -/

namespace StackHeap.CommandLine

variable (s : Session) (commands : List String)

theorem session_runCommands : (runCommands s commands).2 = s.runAll commands := by
  induction commands generalizing s with
  | nil => rfl
  | cons command commands ih => exact ih (s.run command).1

theorem outcomes_runCommands : (s.runAll commands).transcript.map (·.outcome) =
    s.transcript.map (·.outcome) ++ (runCommands s commands).1 := by
  induction commands generalizing s with
  | nil => exact (List.append_nil _).symm
  | cons command commands ih =>
      have hrun : (s.run command).1.transcript.map (·.outcome) =
          s.transcript.map (·.outcome) ++ [(s.run command).2] := List.map_append
      exact (ih (s.run command).1).trans (by rw [hrun, List.append_assoc]; rfl)

/-- **A plain run tells of the session that has run its commands.** -/
theorem runPlain_eq (config : Config) :
    let s := (Session.new config).runAll commands
    runPlain config commands =
      { code := if s.failures = 0 then 0 else 1
        output := String.join (s.transcript.map fun e => outcomeLine e.outcome ++ "\n") ++
          s.snapshot.text } := by
  intro s
  have houtcomes : (runCommands (.new config) commands).1 = s.transcript.map (·.outcome) :=
    (outcomes_runCommands (.new config) commands).symm
  have hfailures : s.failures = 0 ↔ (s.transcript.map (·.outcome)).all (·.ok) = true := by
    simp [Session.failures, List.countP_eq_zero]
  simp only [runPlain, session_runCommands, houtcomes, ← hfailures, List.map_map, Function.comp_def, s]

end StackHeap.CommandLine
