import IdentCase.Decimal.Shortest
import IdentCase.Json.Basic
import IdentCase.Text.Integer
import IdentCase.Text.Quoted

/-! How values are shown in messages. -/
namespace IdentCase.Json

/-- Floats from `0.0001` up to `1e16` are shown without an exponent. -/
def shownFloat : Decimal.Layout := ⟨-3, 16, 2, "nan", "inf"⟩

mutual

/-- A value with its texts quoted. -/
def display : Json → String
  | .null => "None"
  | .bool true => "True"
  | .bool false => "False"
  | .int i => toString i
  | .float f => Decimal.render shownFloat f
  | .str s => Text.quote s
  | .arr items => "[" ++ ", ".intercalate (displayItems items) ++ "]"
  | .obj fields => "\x7b" ++ ", ".intercalate (displayFields fields) ++ "\x7d"

def displayItems : List Json → List String
  | [] => []
  | v :: rest => v.display :: displayItems rest

def displayFields : List (String × Json) → List String
  | [] => []
  | (k, v) :: rest => (Text.quote k ++ ": " ++ v.display) :: displayFields rest

end

/-- A text as it is, any other value as `display` shows it. -/
def text : Json → String
  | .str s => s
  | v => v.display

mutual

/-- Whether no integer in a value has more digits than may be written. -/
def legible : Json → Bool
  | .int i => i.natAbs < Nat.pow 10 Text.maxDigits
  | .arr items => legibleItems items
  | .obj fields => legibleFields fields
  | _ => true

def legibleItems : List Json → Bool
  | [] => true
  | v :: rest => v.legible && legibleItems rest

def legibleFields : List (String × Json) → Bool
  | [] => true
  | (_, v) :: rest => v.legible && legibleFields rest

end

end IdentCase.Json
