import IdentCase.Host
import IdentCase.Pattern.Grammar
import IdentCase.Pattern.Match

/-! Patterns from their texts. -/
namespace IdentCase

/-- A pattern with the text that it was read from and the flags for the whole of it. -/
structure Pattern where
  source : String
  flags : Pattern.Flags
  body : Pattern.Expr

namespace Pattern

def maxLookbehind : Nat := Nat.pow 2 32 - 1

/-- The first defect that shows only when a pattern has been read to its end. -/
def Expr.defect? (template : Bool) : Expr → Option Defect
  | .seq a b | .alt a b | .choice _ a b => (a.defect? template).or (b.defect? template)
  | .group _ e | .atomic e => e.defect? template
  | .loop greed _ _ e => if template then some (.loopInTemplate greed) else e.defect? template
  | .look .ahead _ e => e.defect? template
  | .look (.behind w) _ e =>
    if maxLookbehind < w.least then some .lookbehindTooWide
    else if w.least ≠ w.most then some .lookbehindOfManyWidths
    else e.defect? template
  | .empty | .one _ | .anchor _ | .backref .. => none

def readPattern : Reading Expr := do
  checkEscape
  let d ← get
  let body := Expr.ofList (← readAlternatives (4 * d.rest.length + 8) d.flags true)
  let d ← get
  if d.flags.ascii && d.flags.unicode then throw (.limit .incompatibleTypes)
  unless d.rest.isEmpty do fail .unbalanced
  if let some (index, pos) := d.conditions.find? (d.groups ≤ ·.1) then
    failAt (.unknownGroupNumber index) pos
  if let some what := body.defect? d.flags.template then throw (.defect what none)
  return body

/-- The pattern of a text, with flags beside those that the text itself sets. -/
def compile (host : Host) (source : String) (flags : Flags) : Except Refusal Pattern := do
  if host.overflows source flags then throw (.limit .tooDeep)
  let (body, d) ← readPattern.run { named? := host.named?, rest := source.toList, flags }
  return ⟨source, d.flags, body⟩

def find? (p : Pattern) (text : List Char) : Option Found := p.body.find? text

end Pattern

end IdentCase
