import IdentCase.Json.Display
import IdentCase.Pattern.Refusal

/-! What can go wrong in reading options and in checking a tree. -/
namespace IdentCase

inductive Reason
  | notMatcher
  | patternNotText
  | flagsNotText
  | unsupportedFlag (flag : Char)
  | defect (what : Pattern.Defect) (pos : Option Nat)

/-- The reason in words, where `pattern` is the value that was to be a pattern. -/
def Reason.text (pattern : Json) : Reason → String
  | .notMatcher => "expected a string or a pattern object"
  | .patternNotText => "pattern must be a string"
  | .flagsNotText => "flags must be a string"
  | .unsupportedFlag flag => "unsupported flag " ++ Text.quote (.singleton flag)
  | .defect what pos => what.describe pattern.text.toList pos

inductive Fault
  /-- An element of an option list is not usable. -/
  | badMatcher (option : String) (pattern : Json) (reason : Reason)
  /-- A pattern, or a value that is to be written, breaks a limit. -/
  | limit (what : Pattern.Limit)
  /-- A field was asked of a value that is not an object. -/
  | notObject
  /-- A value other than a text was to be put into upper case. -/
  | notUppercasable
  /-- A value is of no use as a name or as a list of matchers. -/
  | notUsable
  /-- The root of a tree has no type. -/
  | untyped
  /-- A value holds itself. -/
  | cyclic

def Fault.message? : Fault → Option String
  | .badMatcher option pattern reason =>
    some (option ++ ": invalid pattern " ++ pattern.display ++ " (" ++ reason.text pattern ++ ")")
  | _ => none

end IdentCase
