import IdentCase.Console
import IdentCase.Pattern.Reading

/-! What a check finds around it: a console, and what is decided elsewhere about patterns and texts. -/
namespace IdentCase

/-- The surroundings of a check. How far the stack reaches depends on what runs already. -/
structure Host where
  console : Console := {}
  /-- The character of a name in a pattern. -/
  named? : List Char → Option Nat := fun _ => none
  /-- The groups that can always be open in a pattern, and the lists and objects around a value. -/
  room : Nat := 0
  /-- Whether the stack is exhausted before a pattern is compiled or refused. -/
  overflows : String → Pattern.Flags → Bool := fun _ _ => false
  overflows_room : ∀ source flags, overflows source flags → room < source.toList.count '(' := by simp
  /-- Whether the stack is exhausted before a value is written. -/
  exhausts : Json → Bool := fun _ => false
  exhausts_room : ∀ v, exhausts v → room < v.depth := by simp
  /-- What is written to the console when patterns are compiled, one after the other. -/
  remarks : List (String × Pattern.Flags) → String := fun _ => ""
  /-- There is something to remark on sets only. -/
  remarks_eq : ∀ ps, (∀ p ∈ ps, '[' ∉ p.1.toList) → remarks ps = "" := by simp

namespace Host

def unwritable? (host : Host) (v : Json) : Option Pattern.Limit :=
  if host.exhausts v then some .tooDeep else if v.legible then none else some .numberTooLong

/-- The fault of an element. Its message shows a value, which may be beyond a limit unless it is a text. -/
def refuse (host : Host) (option : String) (pattern : Json) (reason : Reason) : Fault :=
  match host.unwritable? pattern with
  | some what => .limit what
  | none => .badMatcher option pattern reason

end Host

end IdentCase
