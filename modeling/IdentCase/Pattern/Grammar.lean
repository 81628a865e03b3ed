import IdentCase.Pattern.Escape
import IdentCase.Text.Integer
import IdentCase.Unicode.Identifier

/-! The grammar of patterns. -/
namespace IdentCase.Pattern

def countLimit : Nat := Width.unbounded

def groupLimit : Nat := 1073741823

/-- An element of a sequence. The content of a plain group joins the sequence when that ends. -/
inductive Item
  | single (e : Expr)
  | bare (es : List Expr)

def Item.exprs : Item → List Expr
  | .single e => [e]
  | .bare es => es

def readMember (ascii : Bool) : Token → Reading Member
  | .plain c => return .code c.toNat
  | .escaped c => readClassEscape ascii c

/-- The members of a set up to its end, the last first; `start` is where the set began. -/
def readMembers (ascii : Bool) (start : Nat) : (fuel : Nat) → List Member → Reading (List Member)
  | 0, _ => throw (.limit .tooDeep)
  | fuel + 1, members => do
    let some t ← next | failAt .unterminatedSet start
    if t = .plain ']' && !members.isEmpty then return members
    let first ← readMember ascii t
    if ← accept '-' then
      let some u ← next | failAt .unterminatedSet start
      if u = .plain ']' then return .code '-'.toNat :: first :: members
      let last ← readMember ascii u
      let refuse := fail (.badRange t.text u.text) (t.chars.length + 1 + u.chars.length)
      match first, last with
      | .code lo, .code hi =>
        if hi < lo then refuse else readMembers ascii start fuel (.range lo hi :: members)
      | _, _ => refuse
    else readMembers ascii start fuel (first :: members)

/-- A character set, after its opening bracket at `start`. A set of one character is that character. -/
def readSet (flags : Flags) (start : Nat) : Reading CharTest := do
  let negated ← accept '^'
  let members ← readMembers flags.ascii start ((← get).rest.length + 1) []
  match members.reverse.eraseDups, negated with
  | [.code c], false => return .code flags.caseMode c
  | [.code c], true => return .notCode flags.caseMode c
  | members, _ => return .set flags.caseMode negated members

def readCount? (digits : List Char) : Reading (Option Nat) := do
  if digits.isEmpty then return none
  if Text.maxDigits < digits.length then throw (.limit .numberTooLong)
  let n := readNumber 10 digits
  if countLimit ≤ n then throw (.limit .numberTooLarge)
  return some n

/-- The counts after an opening brace, or nothing if the brace stands for itself. -/
def readBraces? : Reading (Option (Nat × Option Nat)) := do
  if (← peek) = some (.plain '\x7d') then return none
  let start ← get
  let low ← takeAll Char.isDigit
  let high ← if ← accept ',' then takeAll Char.isDigit else pure low
  if ← accept '\x7d' then
    let least := (← readCount? low).getD 0
    let most ← readCount? high
    if most.any (· < least) then failAt .leastAboveMost start.pos
    return some (least, most)
  else
    set start
    return none

def readCounts? (c : Char) : Reading (Option (Nat × Option Nat)) :=
  match c with
  | '*' => return some (0, none)
  | '+' => return some (1, none)
  | '?' => return some (0, some 1)
  | _ => readBraces?

def readGreed : Reading Greed := do
  if ← accept '?' then return .lazy
  if ← accept '+' then return .possessive
  return .greedy

def readLoop (start least : Nat) (most : Option Nat) : List Item → Reading (List Item)
  | [] => failAt .nothingToRepeat start
  | item :: items => do
    match item with
    | .single (.anchor _) => failAt .nothingToRepeat start
    | .single (.loop ..) => failAt .multipleRepeat start
    | _ => return .single (.loop (← readGreed) least most (.ofList item.exprs)) :: items

def skipLine : (fuel : Nat) → Reading Unit
  | 0 => throw (.limit .tooDeep)
  | fuel + 1 => do
    match ← next with
    | none | some (.plain '\n') => return
    | _ => skipLine fuel

def skipComment (start : Nat) : (fuel : Nat) → Reading Unit
  | 0 => throw (.limit .tooDeep)
  | fuel + 1 => do
    match ← next with
    | none => failAt .unterminatedComment start
    | some (.plain ')') => return
    | _ => skipComment start fuel

def readFlag (stops : List Char) (missing : Defect) : Reading Char := do
  match ← next with
  | none => fail missing
  | some (.plain c) =>
    if stops.contains c || Flags.letters.contains c then return c
    else fail (if Unicode.isLetter c.toNat then .unknownFlag else missing) 1
  | some (.escaped _) => fail missing 2

def readAdded (c : Char) : (fuel : Nat) → List Char → Reading (List Char × Char)
  | 0, _ => throw (.limit .tooDeep)
  | fuel + 1, add => do
    if c = 'L' then fail .localeFlag
    if Flags.isType c && add.any fun d => Flags.isType d && d ≠ c then fail .clashingFlags
    let d ← readFlag [')', '-', ':'] .missingFlagsEnd
    if Flags.letters.contains d then readAdded d fuel (c :: add) else return (c :: add, d)

def readRemoved (c : Char) : (fuel : Nat) → List Char → Reading (List Char)
  | 0, _ => throw (.limit .tooDeep)
  | fuel + 1, remove => do
    if Flags.isType c then fail .cannotTurnOffType
    let d ← readFlag [':'] .missingColon
    if d = ':' then return c :: remove else readRemoved d fuel (c :: remove)

/-- The flags of a group to add and to remove, or nothing once flags for the whole pattern are set. -/
def readFlags (c : Char) : Reading (Option (List Char × List Char)) := do
  let fuel := (← get).rest.length + 1
  let (add, stop) ← if c = '-' then pure ([], '-') else readAdded c fuel []
  if stop = ')' then
    modify fun d => { d with flags := add.foldl (·.put true ·) d.flags }
    return none
  if add.contains 't' then fail .cannotTurnOn 1
  let remove ←
    if stop = '-' then do
      let d ← readFlag [] .missingFlag
      readRemoved d fuel []
    else pure []
  if remove.contains 't' then fail .cannotTurnOff 1
  if add.any remove.contains then fail .flagOnAndOff 1
  return some (add, remove)

def readGroupName (terminator : Char) : Reading (List Char) := do
  let name ← takeName .group terminator
  unless Unicode.isIdentifier name do fail (.badGroupName (.ofList name)) (name.length + 1)
  return name

def groupNamed (name : List Char) : Reading Nat := do
  match (← get).names.lookup (.ofList name) with
  | some index => return index
  | none => fail (.unknownGroupName (.ofList name)) (name.length + 1)

/-- The group of a condition, by name or by number. A number is looked up when all groups are known. -/
def readCondition : Reading Nat := do
  let name ← takeName .group ')'
  let back := name.length + 1
  let index ←
    if Unicode.isIdentifier name then groupNamed name
    else
      match Text.readInteger? name with
      | some (.ofNat n) =>
        if n = 0 then fail .groupNumberZero back
        if groupLimit ≤ n then fail (.unknownGroupNumber n) back
        modify fun d =>
          if d.conditions.any (·.1 == n) then d
          else { d with conditions := d.conditions ++ [(n, d.pos - back)] }
        pure n
      | _ => fail (.badGroupName (.ofList name)) back
  checkLookbehind index
  return index

def openGroup (name : Option (List Char)) : Reading Nat := do
  let d ← get
  let index := d.groups
  set { d with widths := d.widths ++ [none] }
  if let some name := name then
    let text := String.ofList name
    if let some old := d.names.lookup text then
      fail (.redefinedGroup text index old) (name.length + 1)
    modify fun d => { d with names := (text, index) :: d.names }
  return index

def closeGroup (index : Nat) (body : Expr) : Reading Unit :=
  modify fun d => { d with widths := d.widths.set (index - 1) (some (body.width d.groupWidth)) }

def closeParenthesis (start : Nat) : Reading Unit := do
  unless ← accept ')' do failAt .unterminatedGroup start

def sameUnit : Expr → Expr → Bool
  | .one s, .one t => s = t
  | .anchor p, .anchor q => p = q
  | .backref i m, .backref j n => i = j && m = n
  | _, _ => false

/-- The elements with which all branches begin, and the rests of the branches. -/
def splitCommon : List Expr → List (List Expr) → List Expr × List (List Expr)
  | [], others => ([], [] :: others)
  | e :: es, others =>
    if others.all fun b => b.head?.any (sameUnit · e) then
      let (common, rests) := splitCommon es (others.map List.tail)
      (e :: common, rests)
    else ([], (e :: es) :: others)

/-- The members of a branch that is a single character or a set. -/
def branchMembers? : List Expr → Option (CaseMode × List Member)
  | [.one (.code m c)] => some (m, [.code c])
  | [.one (.set m false members)] => some (m, members)
  | _ => none

/-- Branches as one sequence. What all begin with comes first; single characters make a set. -/
def joinBranches : List (List Expr) → List Expr
  | [] => []
  | [b] => b
  | b :: bs =>
    let (common, rests) := splitCommon b bs
    match rests.mapM branchMembers? with
    | some ((m, ms) :: more) =>
      common ++ [.one (.set m false (ms ++ more.flatMap (·.2)).eraseDups)]
    | _ => common ++ [.ofAlternatives (rests.map .ofList)]

/-- What a parenthesis has brought: an item, nothing, or new flags for the whole pattern. -/
inductive Outcome
  | item (i : Item)
  | comment
  | flags

def isVerboseSpace (c : Char) : Bool := c == ' ' || 9 ≤ c.toNat && c.toNat ≤ 13

mutual

/-- Alternatives; at the top each takes the flags of the whole pattern. -/
def readAlternatives : (fuel : Nat) → Flags → (top : Bool) → Reading (List Expr)
  | 0, _, _ => throw (.limit .tooDeep)
  | fuel + 1, flags, top => do
    let first ← readSequence fuel flags top []
    return joinBranches (first :: (← readBranches fuel flags top))

def readBranches : (fuel : Nat) → Flags → (top : Bool) → Reading (List (List Expr))
  | 0, _, _ => throw (.limit .tooDeep)
  | fuel + 1, flags, top => do
    if ← accept '|' then
      let d ← get
      let branch ← readSequence fuel (if top then d.flags else flags) false []
      return branch :: (← readBranches fuel flags top)
    else return []

/-- A sequence after the given items, the last first; `leading` if it begins the pattern. -/
def readSequence : (fuel : Nat) → Flags → (leading : Bool) → List Item → Reading (List Expr)
  | 0, _, _, _ => throw (.limit .tooDeep)
  | fuel + 1, flags, leading, items => do
    let start := (← get).pos
    let token ← peek
    let push (e : Expr) := readSequence fuel flags leading (.single e :: items)
    match token with
    | none | some (.plain '|') | some (.plain ')') => return items.reverse.flatMap Item.exprs
    | some (.escaped c) =>
      skip 2
      push (← readEscape flags c)
    | some (.plain c) =>
      skip 1
      if flags.verbose && isVerboseSpace c then readSequence fuel flags leading items
      else if flags.verbose && c = '#' then
        skipLine ((← get).rest.length + 1)
        readSequence fuel flags leading items
      else if c = '[' then push (.one (← readSet flags start))
      else if c = '.' then push (.one (if flags.dotAll then .anything else .anyButNewline))
      else if c = '^' then push (.anchor (.caret flags.multiline))
      else if c = '$' then push (.anchor (.dollar flags.multiline))
      else if c = '(' then
        match ← readGroup fuel flags (leading && items.isEmpty) start with
        | .item i => readSequence fuel flags leading (i :: items)
        | .comment => readSequence fuel flags leading items
        | .flags => readSequence fuel (← get).flags leading items
      else if c = '*' || c = '+' || c = '?' || c = '\x7b' then
        match ← readCounts? c with
        | some (least, most) =>
          readSequence fuel flags leading (← readLoop start least most items)
        | none => push (.one (.code flags.caseMode c.toNat))
      else push (.one (.code flags.caseMode c.toNat))

/-- The content of the group begun at `start`, with its closing parenthesis. -/
def readBody : (fuel : Nat) → Flags → (start : Nat) → Reading (List Expr)
  | 0, _, _ => throw (.limit .tooDeep)
  | fuel + 1, flags, start => do
    let body ← readAlternatives fuel flags false
    closeParenthesis start
    return body

/-- A group after its opening parenthesis at `start`; `leading` if it begins the pattern. -/
def readGroup : (fuel : Nat) → Flags → (leading : Bool) → (start : Nat) → Reading Outcome
  | 0, _, _, _ => throw (.limit .tooDeep)
  | fuel + 1, flags, leading, start => do
    let capture (name : Option (List Char)) : Reading Outcome := do
      let index ← openGroup name
      let body := Expr.ofList (← readBody fuel flags start)
      closeGroup index body
      return .item (.single (.group (some index) body))
    unless ← accept '?' do return ← capture none
    let some t ← next | fail .unexpectedEnd
    match t with
    | .plain 'P' =>
      if ← accept '<' then capture (some (← readGroupName '>'))
      else if ← accept '=' then
        let name ← readGroupName ')'
        let index ← groupNamed name
        unless (← get).isClosed index do fail .openGroup (name.length + 1)
        checkLookbehind index
        return .item (.single (.backref index flags.caseMode))
      else
        let some u ← next | fail .unexpectedEnd
        fail (.unknownExtension ("P" ++ u.text)) (u.chars.length + 2)
    | .plain ':' => return .item (.bare (← readBody fuel flags start))
    | .plain '>' => return .item (.single (.atomic (.ofList (← readBody fuel flags start))))
    | .plain '#' =>
      skipComment start ((← get).rest.length + 1)
      return .comment
    | .plain '=' => readLook fuel flags start true false
    | .plain '!' => readLook fuel flags start true true
    | .plain '<' =>
      let some u ← next | fail .unexpectedEnd
      match u with
      | .plain '=' => readLook fuel flags start false false
      | .plain '!' => readLook fuel flags start false true
      | _ => fail (.unknownExtension ("<" ++ u.text)) (u.chars.length + 2)
    | .plain '(' =>
      let index ← readCondition
      let yes ← readSequence fuel flags false []
      let no ←
        if ← accept '|' then do
          let no ← readSequence fuel flags false []
          if (← peek) = some (.plain '|') then fail .thirdBranch
          pure no
        else pure []
      closeParenthesis start
      return .item (.single (.choice index (.ofList yes) (.ofList no)))
    | .plain c =>
      if Flags.letters.contains c || c = '-' then
        match ← readFlags c with
        | none => if leading then return .flags else failAt .misplacedFlags start
        | some (add, remove) =>
          let body ← readBody fuel (flags.change add remove) start
          return .item (.single (.group none (.ofList body)))
      else fail (.unknownExtension t.text) 2
    | .escaped _ => fail (.unknownExtension t.text) 3

def readLook : (fuel : Nat) → Flags → (start : Nat) → (ahead negated : Bool) → Reading Outcome
  | 0, _, _, _, _ => throw (.limit .tooDeep)
  | fuel + 1, flags, start, ahead, negated => do
    let d ← get
    unless ahead do set { d with lookbehind := d.lookbehind.or (some d.groups) }
    let body := Expr.ofList (← readBody fuel flags start)
    modify fun e => { e with lookbehind := d.lookbehind }
    let e ← get
    let side := if ahead then .ahead else .behind (body.width e.groupWidth)
    return .item (.single (.look side negated body))

end

end IdentCase.Pattern
