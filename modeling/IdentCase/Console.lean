import IdentCase.Fault

/-! Status messages on a console, with colors on a terminal. -/
namespace IdentCase

/-- The variables that a console heeds, if they are set, and whether it is a terminal. -/
structure Environment where
  noColor : Option String := none
  debug : Option String := none
  terminal : Bool := false

structure Console where
  noColor : Bool := false
  debug : Bool := false
  terminal : Bool := false

namespace Console

/-- The console in an environment. The empty text and zero stand for no debugging. -/
def setUp (e : Environment) : Console where
  noColor := e.noColor.isSome
  debug := !(["", "0"].contains (e.debug.getD ""))
  terminal := e.terminal

def styles : List (String × String) := [
  ("reset", "\x1b[0m"), ("bold", "\x1b[1m"), ("dim", "\x1b[2m"), ("red", "\x1b[31m"),
  ("green", "\x1b[32m"), ("yellow", "\x1b[33m")]

def reset : String := "\x1b[0m"

def colored (c : Console) : Bool := c.terminal && !c.noColor

/-- A text in a style, if the console is colored. A style that is not known changes nothing. -/
def styled (c : Console) (text style : String) : String :=
  if c.colored then (styles.lookup style).getD "" ++ text ++ reset else text

def color (c : Console) (text style : Json) : Except Fault String :=
  match style with
  | .str name => .ok (c.styled text.text name)
  | .arr _ | .obj _ => if c.colored then .error .notUsable else .ok text.text
  | _ => .ok (c.styled text.text "")

def log (c : Console) (message : String) : String := c.styled message "dim" ++ "\n"

/-- A status line for debugging, which is shown only on demand. -/
def debugLine (c : Console) (message : String) : String :=
  if c.debug then c.log ("[camellint] " ++ message) else ""

end Console

end IdentCase
