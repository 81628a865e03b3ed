import IdentCase.Pattern.Expr

/-! Backtracking matches of pattern expressions, leftmost search and removal of all matches. -/
namespace IdentCase.Pattern

/-- A place in a text, the nearest character before it first, with the bounds of the groups. -/
structure State where
  pos : Nat
  before : List Char
  after : List Char
  starts : List (Nat × Nat)
  ends : List (Nat × Nat)

namespace State

def ofText (text : List Char) : State := ⟨0, [], text, [], []⟩

def step (s : State) (c : Char) (rest : List Char) : State :=
  { s with pos := s.pos + 1, before := c :: s.before, after := rest }

def back : Nat → State → Option State
  | 0, s => some s
  | n + 1, s =>
    match s.before with
    | [] => none
    | c :: rest => back n { s with pos := s.pos - 1, before := rest, after := c :: s.after }

def openGroup (s : State) (i : Nat) : State := { s with starts := (i, s.pos) :: s.starts }

def closeGroup (s : State) (i : Nat) : State := { s with ends := (i, s.pos) :: s.ends }

/-- The bounds of a group, if it has been passed and not been opened again beyond its end. -/
def bounds? (s : State) (i : Nat) : Option (Nat × Nat) := do
  let start ← s.starts.lookup i
  let stop ← s.ends.lookup i
  if start ≤ stop then some (start, stop) else none

def groupText? (s : State) (i : Nat) : Option (List Char) :=
  (s.bounds? i).map fun (start, stop) =>
    ((s.before.reverse ++ s.after).drop start).take (stop - start)

def passText (mode : CaseMode) : List Char → State → Option State
  | [], s => some s
  | c :: cs, s =>
    match s.after with
    | [] => none
    | x :: rest =>
      if mode.fold x.toNat = mode.fold c.toNat then passText mode cs (s.step x rest) else none

end State

/-- Letters, numbers and the low line make words. -/
def isWord (ascii : Bool) (c : Char) : Bool := Category.word.holds ascii c.toNat

def State.atBoundary (s : State) (ascii : Bool) : Bool :=
  s.before.head?.any (isWord ascii) != s.after.head?.any (isWord ascii)

/-- Whether an anchor holds at a place. An empty text has neither boundaries nor other places. -/
def Anchor.holds (s : State) : Anchor → Bool
  | .caret lines => s.before.isEmpty || lines && s.before.head? == some '\n'
  | .dollar lines =>
    s.after.isEmpty || s.after == ['\n'] || lines && s.after.head? == some '\n'
  | .textStart => s.before.isEmpty
  | .textEnd => s.after.isEmpty
  | .boundary ascii => s.atBoundary ascii
  | .nonBoundary ascii => !(s.before.isEmpty && s.after.isEmpty) && !s.atBoundary ascii

abbrev Next := State → Option State

/-- `m`, `n` times. -/
def repeated (m : Next → Next) : Nat → Next → Next
  | 0, k, s => k s
  | n + 1, k, s => m (repeated m n k) s

def fewer (left : Option Nat) : Option Nat := left.map (· - 1)

/--
`m` as often as it can, `left` times at most. A round that starts where the one before started is
not tried, so a round for each place of the rest of the text suffices as `fuel`.
-/
def greedily (m : Next → Next) : (fuel : Nat) → (left last : Option Nat) → Next → Next
  | 0, _, _, k, s => k s
  | fuel + 1, left, last, k, s =>
    if left = some 0 ∨ last = some s.pos then k s
    else (m (greedily m fuel (fewer left) (some s.pos) k) s).orElse fun _ => k s

/-- `m` as seldom as it can; see `greedily`. -/
def lazily (m : Next → Next) : (fuel : Nat) → (left last : Option Nat) → Next → Next
  | 0, _, _, k, s => k s
  | fuel + 1, left, last, k, s =>
    (k s).orElse fun _ =>
      if left = some 0 ∨ last = some s.pos then none
      else m (lazily m fuel (fewer left) (some s.pos) k) s

/-- The place after `m` as often as it can, each time in its first way; see `greedily`. -/
def possessively (m : Next → Next) : (fuel : Nat) → (left last : Option Nat) → State → State
  | 0, _, _, s => s
  | fuel + 1, left, last, s =>
    if left = some 0 ∨ last = some s.pos then s
    else
      match m some s with
      | none => s
      | some t => possessively m fuel (fewer left) (some s.pos) t

/-- `m` in its first way only. -/
def once (m : Next → Next) : Next → Next := fun k s => (m some s).bind k

/-- A loop that takes at least `least` and at most `most` rounds of `m`. -/
def rounds (m : Next → Next) (greed : Greed) (least : Nat) (most : Option Nat) (k : Next) : Next :=
  let left := most.map (· - least)
  match greed with
  | .greedy => repeated m least fun t => greedily m (t.after.length + 1) left none k t
  | .lazy => repeated m least fun t => lazily m (t.after.length + 1) left none k t
  | .possessive =>
    repeated (once m) least fun t => k (possessively m (t.after.length + 1) left none t)

/-- Matches an expression and then `k`, trying the ways of the expression in order. -/
def Expr.run : Expr → Next → Next
  | .empty, k, s => k s
  | .one test, k, s =>
    match s.after with
    | [] => none
    | c :: rest => if test.accepts c then k (s.step c rest) else none
  | .anchor place, k, s => if place.holds s then k s else none
  | .seq a b, k, s => a.run (b.run k) s
  | .alt a b, k, s => (a.run k s).orElse fun _ => b.run k s
  | .group none e, k, s => e.run k s
  | .group (some i) e, k, s => e.run (fun t => k (t.closeGroup i)) (s.openGroup i)
  | .loop greed least most e, k, s => rounds e.run greed least most k s
  | .look side negated e, k, s =>
    let start? :=
      match side with
      | .ahead => some s
      | .behind w => s.back w.least
    match start?.bind (e.run some), negated with
    | some t, false => k { s with starts := t.starts, ends := t.ends }
    | none, true => k s
    | _, _ => none
  | .atomic e, k, s => (e.run some s).bind k
  | .backref i mode, k, s => do
    let text ← s.groupText? i
    let t ← s.passText mode text
    k t
  | .choice i yes no, k, s => if (s.bounds? i).isSome then yes.run k s else no.run k s

/-- The leftmost match: what was passed over to reach it, and the state after it. -/
structure Found where
  skipped : List Char
  stop : State

def Expr.findFrom (e : Expr) (pos : Nat) (before : List Char) : List Char → Option Found
  | [] => (e.run some ⟨pos, before, [], [], []⟩).map (⟨[], ·⟩)
  | c :: rest =>
    match e.run some ⟨pos, before, c :: rest, [], []⟩ with
    | some t => some ⟨[], t⟩
    | none => (e.findFrom (pos + 1) (c :: before) rest).map fun f => ⟨c :: f.skipped, f.stop⟩

def Expr.find? (e : Expr) (text : List Char) : Option Found := e.findFrom 0 [] text

/-- The rest of a text without its matches; after a match of no characters one is kept. -/
def Expr.removeFrom (e : Expr) : (fuel : Nat) → State → List Char
  | 0, s => s.after
  | fuel + 1, s =>
    match e.findFrom s.pos s.before s.after with
    | none => s.after
    | some f =>
      f.skipped ++
        if f.stop.pos = s.pos + f.skipped.length then
          match f.stop.after with
          | [] => []
          | c :: rest => c :: e.removeFrom fuel (f.stop.step c rest)
        else e.removeFrom fuel f.stop

def Expr.removeAll (e : Expr) (text : List Char) : List Char :=
  e.removeFrom (text.length + 1) (.ofText text)

end IdentCase.Pattern
