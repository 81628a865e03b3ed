import IdentCase.Pattern.CharTest

/-! Pattern expressions, and the least and greatest number of characters that one can match. -/
namespace IdentCase.Pattern

/-- Positions that match no character. A flag says whether line ends count, or only ASCII words. -/
inductive Anchor
  | caret (lines : Bool)
  | dollar (lines : Bool)
  | textStart
  | textEnd
  | boundary (ascii : Bool)
  | nonBoundary (ascii : Bool)
  deriving DecidableEq

/-- How often a loop goes round first: as often as it can, as little, or as often without return. -/
inductive Greed
  | greedy
  | lazy
  | possessive
  deriving DecidableEq

structure Width where
  least : Nat
  most : Nat
  deriving DecidableEq

namespace Width

/-- Widths are counted up to here. -/
def limit : Nat := Nat.pow 2 64

def unbounded : Nat := Nat.pow 2 32 - 1

def capped (w : Width) : Width := ⟨min w.least limit, min w.most limit⟩

def zero : Width := ⟨0, 0⟩

def append (v w : Width) : Width := capped ⟨v.least + w.least, v.most + w.most⟩

def union (v w : Width) : Width := ⟨min v.least w.least, max v.most w.most⟩

def times (w : Width) (least : Nat) (most : Option Nat) : Width :=
  capped ⟨w.least * least,
    match most with
    | some n => w.most * n
    | none => if w.most = 0 then 0 else limit⟩

end Width

/-- A look at the text ahead, or at the text of the given width behind. -/
inductive Side
  | ahead
  | behind (width : Width)
  deriving DecidableEq

/-- A pattern with its flags resolved at every place. -/
inductive Expr
  | empty
  | one (test : CharTest)
  | anchor (place : Anchor)
  | seq (first second : Expr)
  | alt (first second : Expr)
  | group (index : Option Nat) (body : Expr)
  | loop (greed : Greed) (least : Nat) (most : Option Nat) (body : Expr)
  | look (side : Side) (negated : Bool) (body : Expr)
  | atomic (body : Expr)
  | backref (index : Nat) (mode : CaseMode)
  | choice (index : Nat) (yes no : Expr)
  deriving DecidableEq

def Expr.ofList : List Expr → Expr
  | [] => .empty
  | [e] => e
  | e :: es => .seq e (ofList es)

/-- The expressions as alternatives, tried in order. -/
def Expr.ofAlternatives : List Expr → Expr
  | [] => .empty
  | [e] => e
  | e :: es => .alt e (ofAlternatives es)

def Expr.width (groups : Nat → Width) : Expr → Width
  | .empty | .anchor _ | .look .. => .zero
  | .one _ => ⟨1, 1⟩
  | .seq a b => (a.width groups).append (b.width groups)
  | .alt a b => (a.width groups).union (b.width groups)
  | .group _ e | .atomic e => e.width groups
  | .loop _ least most e => (e.width groups).times least most
  | .backref i _ => groups i
  | .choice _ a b => (a.width groups).union (b.width groups)

end IdentCase.Pattern
