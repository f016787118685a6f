/-! # Escaped text

Characters and strings are shown escaped: tab, carriage return, line feed, both quotes and the
backslash behind a backslash, the other characters from space to tilde as they are, and
everything else by its code in lower-case hexadecimal. -/

namespace StackHeap.Text

/-- The lower-case hexadecimal digits of a number. -/
def hexDigits (n : Nat) : List Char := Nat.toDigits 16 n

/-- The escaped form of a character. -/
def escapeChar (c : Char) : List Char :=
  if c = '\t' then ['\\', 't']
  else if c = '\r' then ['\\', 'r']
  else if c = '\n' then ['\\', 'n']
  else if c = '\'' ∨ c = '"' ∨ c = '\\' then ['\\', c]
  else if 0x20 ≤ c.toNat ∧ c.toNat ≤ 0x7E then [c]
  else ['\\', 'u', '\x7b'] ++ hexDigits c.toNat ++ ['\x7d']

/-- The escaped form of a text. -/
def escape (s : String) : String := String.ofList (s.toList.flatMap escapeChar)

end StackHeap.Text
