import StackHeap.Text.Blank

/-! # Scripts

A script has one command a line.  Blank lines and lines that start with two slashes are left out,
and blanks around a command are dropped. -/

namespace StackHeap

/-- The lines of a text, without their line feeds. -/
def textLines : List Char → List (List Char)
  | [] => [[]]
  | c :: cs => if c = '\n' then [] :: textLines cs else (textLines cs).modifyHead (c :: ·)

/-- Whether a line of a script is a command. -/
def isCommandLine (line : List Char) : Bool := !line.isEmpty && !"//".toList.isPrefixOf line

/-- The commands of a script. -/
def scriptCommands (script : String) : List String :=
  (((textLines script.toList).map Text.trim).filter isCommandLine).map String.ofList

end StackHeap
