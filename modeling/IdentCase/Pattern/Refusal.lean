import IdentCase.Pattern.Expr
import IdentCase.Text.Quoted

/-! Why a text is refused as a pattern. -/
namespace IdentCase.Pattern

inductive NameKind
  | group
  | character

def NameKind.text : NameKind → String
  | .group => "group name"
  | .character => "character name"

inductive Defect
  | escapeAtEnd
  | badEscape (text : String)
  | incompleteEscape (text : String)
  | octalTooLarge (text : String)
  | missingBrace
  | missingName (kind : NameKind)
  | unterminatedName (terminator : Char)
  | undefinedCharacter (name : String)
  | openGroup
  | groupOfLookbehind
  | unknownGroupNumber (index : Nat)
  | redefinedGroup (name : String) (index old : Nat)
  | unterminatedSet
  | badRange (lo hi : String)
  | leastAboveMost
  | nothingToRepeat
  | multipleRepeat
  | unexpectedEnd
  | badGroupName (name : String)
  | unknownGroupName (name : String)
  | unknownExtension (text : String)
  | unterminatedComment
  | unterminatedGroup
  | groupNumberZero
  | thirdBranch
  | misplacedFlags
  | localeFlag
  | clashingFlags
  | missingFlagsEnd
  | unknownFlag
  | missingFlag
  | missingColon
  | cannotTurnOn
  | cannotTurnOff
  | cannotTurnOffType
  | flagOnAndOff
  | unbalanced
  | lookbehindTooWide
  | lookbehindOfManyWidths
  | loopInTemplate (greed : Greed)

def Greed.code : Greed → String
  | .greedy => "MAX_REPEAT"
  | .lazy => "MIN_REPEAT"
  | .possessive => "POSSESSIVE_REPEAT"

def Defect.message : Defect → String
  | .escapeAtEnd => "bad escape (end of pattern)"
  | .badEscape text => "bad escape " ++ text
  | .incompleteEscape text => "incomplete escape " ++ text
  | .octalTooLarge text => "octal escape value " ++ text ++ " outside of range 0-0o377"
  | .missingBrace => "missing \x7b"
  | .missingName kind => "missing " ++ kind.text
  | .unterminatedName terminator =>
    "missing " ++ String.singleton terminator ++ ", unterminated name"
  | .undefinedCharacter name => "undefined character name " ++ Text.quote name
  | .openGroup => "cannot refer to an open group"
  | .groupOfLookbehind => "cannot refer to group defined in the same lookbehind subpattern"
  | .unknownGroupNumber index => "invalid group reference " ++ toString index
  | .redefinedGroup name index old =>
    "redefinition of group name " ++ Text.quote name ++ " as group " ++ toString index ++
      "; was group " ++ toString old
  | .unterminatedSet => "unterminated character set"
  | .badRange lo hi => "bad character range " ++ lo ++ "-" ++ hi
  | .leastAboveMost => "min repeat greater than max repeat"
  | .nothingToRepeat => "nothing to repeat"
  | .multipleRepeat => "multiple repeat"
  | .unexpectedEnd => "unexpected end of pattern"
  | .badGroupName name => "bad character in group name " ++ Text.quote name
  | .unknownGroupName name => "unknown group name " ++ Text.quote name
  | .unknownExtension text => "unknown extension ?" ++ text
  | .unterminatedComment => "missing ), unterminated comment"
  | .unterminatedGroup => "missing ), unterminated subpattern"
  | .groupNumberZero => "bad group number"
  | .thirdBranch => "conditional backref with more than two branches"
  | .misplacedFlags => "global flags not at the start of the expression"
  | .localeFlag => "bad inline flags: cannot use 'L' flag with a str pattern"
  | .clashingFlags => "bad inline flags: flags 'a', 'u' and 'L' are incompatible"
  | .missingFlagsEnd => "missing -, : or )"
  | .unknownFlag => "unknown flag"
  | .missingFlag => "missing flag"
  | .missingColon => "missing :"
  | .cannotTurnOn => "bad inline flags: cannot turn on global flag"
  | .cannotTurnOff => "bad inline flags: cannot turn off global flag"
  | .cannotTurnOffType => "bad inline flags: cannot turn off flags 'a', 'u' and 'L'"
  | .flagOnAndOff => "bad inline flags: flag turned on and off"
  | .unbalanced => "unbalanced parenthesis"
  | .lookbehindTooWide => "looks too much behind"
  | .lookbehindOfManyWidths => "look-behind requires fixed-width pattern"
  | .loopInTemplate greed => "internal: unsupported template operator " ++ greed.code

/-- Where a defect lies in a text; the line and column are told if the text has several lines. -/
def describePosition (text : List Char) (pos : Nat) : String :=
  let before := text.take pos
  let line := before.count '\n' + 1
  let column := (before.reverse.takeWhile (· != '\n')).length + 1
  " at position " ++ toString pos ++
    if text.contains '\n' then
      " (line " ++ toString line ++ ", column " ++ toString column ++ ")"
    else ""

/-- A bound on numbers, on flags, or on what stands within one another. -/
inductive Limit
  | numberTooLarge
  | numberTooLong
  | incompatibleTypes
  | tooDeep

inductive Refusal
  | defect (what : Defect) (pos : Option Nat)
  | limit (what : Limit)

def Defect.describe (what : Defect) (text : List Char) (pos : Option Nat) : String :=
  match pos with
  | some p => what.message ++ describePosition text p
  | none => what.message

end IdentCase.Pattern
