import IdentCase.Matcher

/-! Options of the check, from their JSON form. -/
namespace IdentCase

inductive Policy
  | always
  | never
  deriving DecidableEq

def Policy.name : Policy → String
  | .always => "always"
  | .never => "never"

/-- Resolved options, and the console of the check. A list that was not given is absent. -/
structure Config where
  console : Console := {}
  policy : Policy := .always
  prefixes : Option (List Matcher) := none
  suffixes : Option (List Matcher) := none
  exceptions : Option (List Matcher) := none

inductive Notice
  | policyIgnored (raw : Json)
  | reported (name : Json)
  | counted (violations : Nat)

def Notice.text : Notice → String
  | .policyIgnored raw =>
    "property policy " ++ raw.display ++ " is not 'always'/'never', using 'always'"
  | .reported name => "reported " ++ name.display
  | .counted n => toString n ++ " camelcase violation(s)"

namespace Options

def addFlag? (flags : Pattern.Flags) : Char → Option Pattern.Flags
  | 'i' => some { flags with ignoreCase := true }
  | 'm' => some { flags with multiline := true }
  | 's' => some { flags with dotAll := true }
  | 'u' | 'g' | 'y' => some flags
  | _ => none

/-- The flags with those of all letters, or the first letter that stands for none. -/
def addFlags (flags : Pattern.Flags) : List Char → Except Char Pattern.Flags
  | [] => .ok flags
  | c :: rest =>
    match addFlag? flags c with
    | some flags => addFlags flags rest
    | none => .error c

def compilePattern (host : Host) (option source letters : String) : Except Fault Pattern :=
  match addFlags {} letters.toList with
  | .error c => .error (.badMatcher option (.str source) (.unsupportedFlag c))
  | .ok flags =>
    match Pattern.compile host source flags with
    | .ok p => .ok p
    | .error (.defect what pos) => .error (.badMatcher option (.str source) (.defect what pos))
    | .error (.limit what) => .error (.limit what)

/-- The object that describes a pattern: the element itself, or the value under its key `regex`. -/
def patternSpec (elt : Json) : Json := (elt.get? "regex").getD elt

def compileMatcher (host : Host) (option : String) (elt : Json) : Except Fault Matcher :=
  match elt with
  | .str text => .ok (.literal text)
  | .obj _ =>
    let spec := patternSpec elt
    match (spec.get? "pattern").getD .null with
    | .str source =>
      match (spec.get? "flags").getD .null with
      | .null => (compilePattern host option source "").map .pattern
      | .str flags => (compilePattern host option source flags).map .pattern
      | _ => .error (.badMatcher option (.str source) .flagsNotText)
    | pattern => .error (host.refuse option pattern .patternNotText)
  | _ => .error (host.refuse option elt .notMatcher)

/-- The matchers of an option list. A value that is no list counts as absent. -/
def compileMatchers (host : Host) (option : String) (value : Json) :
    Except Fault (Option (List Matcher)) :=
  match value with
  | .arr items => (items.mapM (compileMatcher host option)).map some
  | _ => .ok none

/-- The value of the policy: of the first of its two keys that is present. -/
def policyValue (options : Json) : Json :=
  ((options.get? "propertyPolicy").or (options.get? "properties")).getD .null

/-- The policy of a value. Values that name none stand for `always`, with a notice unless null. -/
def resolvePolicy (raw : Json) : Policy × List Notice :=
  match raw with
  | .null => (.always, [])
  | .str text =>
    if text = "always" then (.always, [])
    else if text = "never" then (.never, [])
    else (.always, [.policyIgnored raw])
  | _ => (.always, [.policyIgnored raw])

/-- The configuration of raw options. The lists are compiled before the policy is looked at. -/
def resolve (host : Host) (options : Json) : Except Fault (Config × List Notice) := do
  let options ←
    match options with
    | .obj _ => pure options
    | _ => if options.truthy then .error .notObject else pure (.obj [])
  let list (key : String) := compileMatchers host key ((options.get? key).getD .null)
  let prefixes ← list "allowedPrefixes"
  let suffixes ← list "allowedSuffixes"
  let exceptions ← list "exceptions"
  let (policy, notices) := resolvePolicy (policyValue options)
  return ({ console := host.console, policy, prefixes, suffixes, exceptions }, notices)

/-- The keys of options that are lists, in the order in which these are compiled. -/
def listKeys : List String := ["allowedPrefixes", "allowedSuffixes", "exceptions"]

def elementsAt (key : String) (value : Option Json) : List (String × Json) :=
  match value with
  | some (.arr items) => items.map (key, ·)
  | _ => []

def elements (options : Json) : List (String × Json) :=
  listKeys.flatMap fun key => elementsAt key (options.get? key)

def described? (elt : Json) : Option (String × Pattern.Flags) :=
  match elt, (patternSpec elt).get? "pattern", ((patternSpec elt).get? "flags").getD .null with
  | .obj _, some (.str source), .null => some (source, {})
  | .obj _, some (.str source), .str letters =>
    (addFlags {} letters.toList).toOption.map (source, ·)
  | _, _, _ => none

/-- The patterns that are compiled for elements, up to the first element that is at fault. -/
def compiledFor (host : Host) : List (String × Json) → List (String × Pattern.Flags)
  | [] => []
  | (option, elt) :: rest =>
    (described? elt).toList ++
      match compileMatcher host option elt with
      | .ok _ => compiledFor host rest
      | .error _ => []

def compiled (host : Host) (options : Json) : List (String × Pattern.Flags) :=
  compiledFor host (elements options)

end Options

end IdentCase
