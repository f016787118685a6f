/-! # Lines of styled text

What is shown is made of lines.  A line is a row of spans, each of them a text in one style.  How wide a
text is, and which cells of the screen it takes, is the terminal's business. -/

namespace StackHeap.Visualizer

/-- A colour; `reset` leaves it to what is below. -/
inductive Color where
  | rgb (red green blue : Nat)
  | black
  | reset
deriving DecidableEq, Repr, Inhabited

/-! ### The colours in use -/

namespace Color

def foreground : Color := rgb 205 214 244
def blue : Color := rgb 137 180 250
def orange : Color := rgb 250 179 135
def grey : Color := rgb 108 112 134
def green : Color := rgb 166 227 161
def red : Color := rgb 243 139 168
def yellow : Color := rgb 249 226 175
def cyan : Color := rgb 148 226 213
def pink : Color := rgb 245 194 231
/-- The background of the status bar. -/
def bar : Color := rgb 50 50 70

end Color

/-- How a text looks. -/
structure Style where
  fg : Color := .reset
  bg : Color := .reset
  bold : Bool := false
deriving DecidableEq, Repr, Inhabited

/-- A text in a style. -/
structure Span where
  text : String
  style : Style := {}
deriving DecidableEq, Repr, Inhabited

/-- A row of spans. -/
abbrev Line := List Span

/-- A line of one text in a style. -/
def styled (style : Style) (text : String) : Line := [⟨text, style⟩]

/-- A line of one text in a colour. -/
def colored (fg : Color) (text : String) : Line := styled { fg := fg } text

end StackHeap.Visualizer
