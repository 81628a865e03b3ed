import IdentCase.Decimal.Shortest
import IdentCase.Json.Basic
import IdentCase.Text.Quoted

/-! JSON texts of values, without blanks. -/
namespace IdentCase.Json

/-- Floats in JSON have the digits that messages show. -/
def jsonFloat : Decimal.Layout := ⟨-3, 16, 2, "NaN", "Infinity"⟩

def escapeChar (c : Char) : List Char :=
  if c = '"' ∨ c = '\\' then ['\\', c]
  else if c.toNat < 32 ∨ c.toNat = 127 then '\\' :: 'u' :: Text.hex 4 c.toNat
  else [c]

def escape (s : String) : String := .ofList ('"' :: s.toList.flatMap escapeChar ++ ['"'])

mutual

def print : Json → String
  | .null => "null"
  | .bool true => "true"
  | .bool false => "false"
  | .int i => toString i
  | .float f => Decimal.render jsonFloat f
  | .str s => escape s
  | .arr items => "[" ++ ",".intercalate (printItems items) ++ "]"
  | .obj fields => "\x7b" ++ ",".intercalate (printFields fields) ++ "\x7d"

def printItems : List Json → List String
  | [] => []
  | v :: rest => v.print :: printItems rest

def printFields : List (String × Json) → List String
  | [] => []
  | (k, v) :: rest => (escape k ++ ":" ++ v.print) :: printFields rest

end

end IdentCase.Json
