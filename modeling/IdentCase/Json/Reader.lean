import IdentCase.Json.Basic
import IdentCase.Text.Integer

/-! Reading JSON texts. A key that comes twice keeps its first place and its last value. -/
namespace IdentCase.Json

def isBlank (c : Char) : Bool := c == ' ' || c == '\n' || c == '\t' || c == '\r'

def skipBlanks (text : List Char) : List Char := text.dropWhile isBlank

/-- The rest of a text after a given beginning. -/
def expect? : List Char → List Char → Option (List Char)
  | [], rest => some rest
  | c :: cs, d :: rest => if c = d then expect? cs rest else none
  | _ :: _, [] => none

def hexDigit? (c : Char) : Option Nat :=
  if '0' ≤ c && c ≤ '9' then some (c.toNat - 48)
  else if 'a' ≤ c && c ≤ 'f' then some (c.toNat - 87)
  else if 'A' ≤ c && c ≤ 'F' then some (c.toNat - 55)
  else none

def readUnit? : List Char → Option (Nat × List Char)
  | a :: b :: c :: d :: rest => do
    let n := (← hexDigit? a) * 4096 + (← hexDigit? b) * 256 + (← hexDigit? c) * 16 + (← hexDigit? d)
    return (n, rest)
  | _ => none

/-- The character of an escape by code unit. Two surrogates make one character, and none alone. -/
def readUnicode? (text : List Char) : Option (Char × List Char) := do
  let (high, rest) ← readUnit? text
  if 0xD800 ≤ high && high < 0xDC00 then
    match rest with
    | '\\' :: 'u' :: more =>
      let (low, rest') ← readUnit? more
      if 0xDC00 ≤ low && low < 0xE000 then
        return (.ofNat (0x10000 + (high - 0xD800) * 1024 + (low - 0xDC00)), rest')
      else none
    | _ => none
  else if 0xDC00 ≤ high && high < 0xE000 then none
  else return (.ofNat high, rest)

def readChars? : (fuel : Nat) → List Char → List Char → Option (List Char × List Char)
  | 0, _, _ => none
  | fuel + 1, chars, text =>
    match text with
    | '"' :: rest => some (chars, rest)
    | '\\' :: 'u' :: rest => do
      let (c, rest) ← readUnicode? rest
      readChars? fuel (c :: chars) rest
    | '\\' :: c :: rest =>
      match c with
      | 'n' => readChars? fuel ('\n' :: chars) rest
      | 't' => readChars? fuel ('\t' :: chars) rest
      | 'r' => readChars? fuel ('\r' :: chars) rest
      | 'b' => readChars? fuel ('\x08' :: chars) rest
      | 'f' => readChars? fuel ('\x0c' :: chars) rest
      | _ => readChars? fuel (c :: chars) rest
    | c :: rest => readChars? fuel (c :: chars) rest
    | [] => none

def readString? (text : List Char) : Option (String × List Char) := do
  let (chars, rest) ← readChars? (text.length + 1) [] text
  return (.ofList chars.reverse, rest)

def digitsValue (digits : List Char) : Nat :=
  digits.foldl (fun n c => n * 10 + (c.toNat - 48)) 0

def readExponent? : List Char → Option (Option Int × List Char)
  | c :: rest =>
    if c = 'e' ∨ c = 'E' then
      let (negative, rest) :=
        match rest with
        | '-' :: r => (true, r)
        | '+' :: r => (false, r)
        | r => (false, r)
      let digits := rest.takeWhile Char.isDigit
      if digits.isEmpty then none
      else
        let n : Int := digitsValue digits
        some (some (if negative then -n else n), rest.dropWhile Char.isDigit)
    else some (none, c :: rest)
  | [] => some (none, [])

/-- The float nearest to `mantissa * 10 ^ exponent`; beyond all floats it is infinite. -/
def toFloat (mantissa : Nat) (exponent : Int) : Float :=
  let size := (Nat.toDigits 10 mantissa).length + exponent
  if mantissa = 0 ∨ size < -400 then 0
  else if 400 < size then Float.ofScientific 1 false 400
  else .ofScientific mantissa (exponent < 0) exponent.natAbs

/-- A number. With a point or an exponent it is a float, and otherwise it has a limit of digits. -/
def readNumber? (text : List Char) : Option (Json × List Char) := do
  let (negative, text) :=
    match text with
    | '-' :: r => (true, r)
    | r => (false, r)
  if let some rest := expect? "Infinity".toList text then
    let infinity := Float.ofScientific 1 false 400
    return (.float (if negative then -infinity else infinity), rest)
  let whole := text.takeWhile Char.isDigit
  if whole.isEmpty then none
  let rest := text.dropWhile Char.isDigit
  let (fraction, rest) :=
    match rest with
    | '.' :: r => (some (r.takeWhile Char.isDigit), r.dropWhile Char.isDigit)
    | r => (none, r)
  let (exponent, rest) ← readExponent? rest
  if fraction.isNone && exponent.isNone then
    if Text.maxDigits < whole.length then none
    let n : Int := digitsValue whole
    return (.int (if negative then -n else n), rest)
  let places := fraction.getD []
  let f := toFloat (digitsValue (whole ++ places)) (exponent.getD 0 - places.length)
  return (.float (if negative then -f else f), rest)

mutual

def readValue? : (fuel : Nat) → List Char → Option (Json × List Char)
  | 0, _ => none
  | fuel + 1, text =>
    match skipBlanks text with
    | '"' :: rest => do
      let (s, rest) ← readString? rest
      return (.str s, rest)
    | '[' :: rest =>
      match skipBlanks rest with
      | ']' :: rest => some (.arr [], rest)
      | rest => do
        let (items, rest) ← readItems? fuel rest
        return (.arr items, rest)
    | '\x7b' :: rest =>
      match skipBlanks rest with
      | '\x7d' :: rest => some (.obj [], rest)
      | rest => do
        let (fields, rest) ← readFields? fuel [] rest
        return (.obj fields, rest)
    | 't' :: rest => do return (.bool true, ← expect? "rue".toList rest)
    | 'f' :: rest => do return (.bool false, ← expect? "alse".toList rest)
    | 'n' :: rest => do return (.null, ← expect? "ull".toList rest)
    | 'N' :: rest => do return (.float (0.0 / 0.0), ← expect? "aN".toList rest)
    | rest => readNumber? rest

/-- The items of an array, which has one at least. -/
def readItems? : (fuel : Nat) → List Char → Option (List Json × List Char)
  | 0, _ => none
  | fuel + 1, text => do
    let (v, rest) ← readValue? fuel text
    match skipBlanks rest with
    | ',' :: rest =>
      let (items, rest) ← readItems? fuel rest
      return (v :: items, rest)
    | ']' :: rest => return ([v], rest)
    | _ => none

/-- The fields of an object after the given ones; there is one more at least. -/
def readFields? : (fuel : Nat) → List (String × Json) → List Char → Option (List (String × Json) × List Char)
  | 0, _, _ => none
  | fuel + 1, fields, text =>
    match skipBlanks text with
    | '"' :: rest => do
      let (key, rest) ← readString? rest
      let rest ← expect? [':'] (skipBlanks rest)
      let (v, rest) ← readValue? fuel rest
      let fields := setField key v fields
      match skipBlanks rest with
      | ',' :: rest => readFields? fuel fields rest
      | '\x7d' :: rest => return (fields, rest)
      | _ => none
    | _ => none

end

def parse? (text : String) : Option Json := do
  let chars := text.toList
  let (v, rest) ← readValue? (2 * chars.length + 2) chars
  if (skipBlanks rest).isEmpty then some v else none

end IdentCase.Json
