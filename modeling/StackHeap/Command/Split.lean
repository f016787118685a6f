/-! # Lists in command text

Attribute lists and element lists are cut at the commas that stand outside all brackets and
quotes.  The cut is made on characters: a `Scan` knows the bracket depth, the quote that is
open, and whether a backslash just went by.  All three kinds of brackets count alike, and a
closing bracket at depth zero leaves the depth at zero. -/

namespace StackHeap.Command

/-- Where a scan through a list stands. -/
structure Scan where
  depth : Nat := 0
  /-- The quote of the literal that the scan is inside of. -/
  quote : Option Char := none
  /-- Whether the next character of the literal is escaped. -/
  escaped : Bool := false
deriving DecidableEq, Repr, Inhabited

namespace Scan

/-- Whether the list is cut at the character. -/
def cutsAt (s : Scan) (c : Char) : Bool := c = ',' && s.quote = none && s.depth = 0

/-- The scan after a character. -/
def next (s : Scan) (c : Char) : Scan :=
  match s.quote with
  | some q =>
    if s.escaped then { s with escaped := false }
    else if c = '\\' then { s with escaped := true }
    else if c = q then { s with quote := none }
    else s
  | none =>
    if c = '"' ∨ c = '\'' then { s with quote := some c }
    else if c = '(' ∨ c = '\x7b' ∨ c = '[' then { s with depth := s.depth + 1 }
    else if c = ')' ∨ c = '\x7d' ∨ c = ']' then { s with depth := s.depth - 1 }
    else s

/-- The parts of a list, from a scan on. -/
def parts (s : Scan) : List Char → List (List Char)
  | [] => [[]]
  | c :: cs =>
    if s.cutsAt c then [] :: (s.next c).parts cs
    else ((s.next c).parts cs).modifyHead (c :: ·)

end Scan

/-- The parts of a list between its top-level commas; there is always at least one. -/
def splitTopLevel (cs : List Char) : List (List Char) := ({} : Scan).parts cs

end StackHeap.Command
