import DocComment.TypeExpr.Rule

/-! Type expressions read with one cursor. The rules of `Rule` take the text that is left and give
back what is left behind a type. Here all of them move the same cursor, which knows its position in
the text and the level it is at, and which carries what the costly rules have come to so far. A rule
that fails after it has moved the cursor puts it back, or the next alternative would begin at the
wrong place. -/

namespace DocComment.TypeExpr

open Text

/-- A position where a costly rule was tried, with the level it was tried at. -/
structure Spot where
  rule : Costly
  position : Nat
  level : Nat
  deriving DecidableEq, Repr

/-- What costly rules have come to, the latest first: the type that was found, if one was, and the
position of the cursor afterwards. -/
abbrev Kept := List (Spot × Option TypeExpr × Nat)

structure Cursor where
  position : Nat := 0
  level : Nat := 0
  kept : Kept := []

abbrev Walk := StateM Cursor

namespace Walk

variable {α : Type}

def position : Walk Nat := return (← get).position

def advance (n : Nat) : Walk Unit := modify fun c => { c with position := c.position + n }

/-- Finds nothing and puts the cursor back. -/
def giveUp (start : Nat) : Walk (Option α) := do
  modify fun c => { c with position := start }
  return none

/-- What the first walk finds that finds something. -/
def first : List (Walk (Option α)) → Walk (Option α)
  | [] => return none
  | walk :: walks => do
    let some a ← walk | first walks
    return some a

/-- A costly rule is tried once at each position and level. -/
def remember (rule : Costly) (walk : Walk (Option TypeExpr)) : Walk (Option TypeExpr) := do
  let c ← get
  let spot : Spot := ⟨rule, c.position, c.level⟩
  match c.kept.lookup spot with
  | some (some t, stop) =>
    set { c with position := stop }
    return some t
  | some (none, _) => return none
  | none =>
    let found ← walk
    modify fun d => { d with kept := (spot, found, d.position) :: d.kept }
    return found

variable (text : List Char)

def rest : Walk (List Char) := return text.drop (← get).position

def next : Walk (Option Char) := return text[(← get).position]?

/-! ### Words -/

def keyword : Walk (Option TypeExpr) := do
  let some (k, _) := keyword? (← rest text) | return none
  advance k.toList.length
  return some (.keyword k)

def className : Walk (Option TypeExpr) := do
  let some (n, _) := className? (← rest text) | return none
  advance n.length
  return some (.className (String.ofList n))

/-- The collection that a word names. -/
def collectionOf : TypeExpr → Option (Option String)
  | .keyword k => if k = "array" then some none else none
  | .className n => some (some n)
  | _ => none

/-- A base that has been read with the levels behind it, or nothing since `start`. -/
def withLevels (start : Nat) (base : TypeExpr) : Walk (Option TypeExpr) := do
  let n := (levels (← rest text)).1
  advance (2 * n)
  if h : 0 < n then return some (.array base ⟨n, h⟩) else giveUp start

/-- A generic that has been read up to its closing bracket, or nothing since `start`. -/
def close (start : Nat) (t : TypeExpr) : Walk (Option TypeExpr) := do
  if (← next text) ≠ some '>' then return ← giveUp start
  advance 1
  return some t

/-! ### Productions -/

section Productions

variable (nested : Stop → Walk (Option TypeExpr))

/-- A group that is read whether or not it was tried before. -/
def readGroup : Walk (Option TypeExpr) := do
  let start ← position
  if (← next text) ≠ some '(' then return none
  advance 1
  let some base ← nested (· = ')') | giveUp start
  if (← next text) ≠ some ')' then return ← giveUp start
  advance 1
  withLevels text start base

def group : Walk (Option TypeExpr) := remember .group (readGroup text nested)

/-- A generic that is read whether or not it was tried before. -/
def readGeneric : Walk (Option TypeExpr) := do
  let start ← position
  let some word ← first [keyword text, className text] | return none
  let some collection := collectionOf word | giveUp start
  if (← next text) ≠ some '<' then return ← giveUp start
  advance 1
  let some value ← nested (fun d => d = ',' || d = '>') | giveUp start
  if (← next text) ≠ some ',' then return ← close text start (.generic collection value)
  advance 1
  advance ((← rest text).takeWhile isGap).length
  let some last ← nested (· = '>') | giveUp start
  close text start (.keyed collection value last)

def generic : Walk (Option TypeExpr) := remember .generic (readGeneric text nested)

def leveled : Walk (Option TypeExpr) := do
  let start ← position
  let some base ← first [keyword text, generic text nested, className text, group text nested]
    | return none
  withLevels text start base

def array : Walk (Option TypeExpr) :=
  first [leveled text nested, group text nested, generic text nested]

def type : Walk (Option TypeExpr) := first [array text nested, keyword text, className text]

/-- Types with bars between them, up to the end of the text or to a character that stops; `fuel`
bounds their number. -/
def members (stop : Stop) (start : Nat) : Nat → Walk (Option (TypeExpr × List TypeExpr))
  | 0 => giveUp start
  | fuel + 1 => do
    let some t ← type text nested | giveUp start
    match ← next text with
    | none => return some (t, [])
    | some c =>
      if stop c then return some (t, [])
      if c ≠ '|' then return ← giveUp start
      advance 1
      let some (u, us) ← members stop start fuel | return none
      return some (t, u :: us)

/-- An expression up to the end of the text or to a character that stops. A type takes at least one
character, so there are no more members than characters. -/
def expression (stop : Stop) : Walk (Option TypeExpr) := do
  let start ← position
  let some (t, ts) ← members text nested stop start (text.length - start) | return none
  return some (join t ts)

end Productions

/-- An expression one level deeper, if the bound allows one. The number of levels that are left is
the measure by which reading ends. -/
def nested (bound : Int) : Nat → Stop → Walk (Option TypeExpr)
  | 0, _ => return none
  | left + 1, stop => do
    if bound ≤ (← get).level then return none
    modify fun c => { c with level := c.level + 1 }
    let found ← expression text (nested bound left) stop
    modify fun c => { c with level := c.level - 1 }
    return found

end Walk

inductive Production where
  | expression (stop : Stop)
  | type
  | keyword
  | className
  | array
  | leveled
  | group
  | generic
  | afresh (rule : Costly)

namespace Production

def walk (text : List Char) (nested : Stop → Walk (Option TypeExpr)) :
    Production → Walk (Option TypeExpr)
  | .expression stop => Walk.expression text nested stop
  | .type => Walk.type text nested
  | .keyword => Walk.keyword text
  | .className => Walk.className text
  | .array => Walk.array text nested
  | .leveled => Walk.leveled text nested
  | .group => Walk.group text nested
  | .generic => Walk.generic text nested
  | .afresh .group => Walk.readGroup text nested
  | .afresh .generic => Walk.readGeneric text nested

/-- A production at the cursor, whatever level that is at. -/
def read (bound : Int) (text : List Char) (production : Production) : Walk (Option TypeExpr) := do
  let level := (← get).level
  production.walk text (Walk.nested text bound (bound - level).toNat)

/-- The rule that says what a production finds in the text that is left. -/
def rule {m : Type → Type} [Monad m] (policy : Policy m) (nested : Stop → Rule m) :
    Production → Rule m
  | .expression stop => Rule.expression policy nested stop
  | .type => Rule.type policy nested
  | .keyword => Rule.keyword
  | .className => Rule.className
  | .array => Rule.array policy nested
  | .leveled => Rule.leveled policy nested
  | .group | .afresh .group => Rule.group policy nested
  | .generic | .afresh .generic => Rule.generic policy nested

end Production

/-- What a costly rule comes to at a spot when nothing is kept. -/
def Spot.outcome (bound : Int) (text : List Char) (spot : Spot) : Option TypeExpr × Nat :=
  let result := ((Production.afresh spot.rule).read bound text).run
    { position := spot.position, level := spot.level }
  (result.1, result.2.position)

/-- Everything kept for a position of the text is what its rule comes to there. -/
def Kept.Correct (bound : Int) (text : List Char) (kept : Kept) : Prop :=
  ∀ spot outcome, kept.lookup spot = some outcome → spot.position ≤ text.length →
    outcome = spot.outcome bound text

/-- A cursor that a production has left: where it was if nothing was found, else further on in the
text, and in any case at its level and with nothing wrong kept. -/
structure Cursor.InOrder (bound : Int) (text : List Char) (before : Cursor)
    (found : Option TypeExpr) (after : Cursor) : Prop where
  back : found = none → after.position = before.position
  ahead : ∀ t, found = some t → before.position < after.position ∧ after.position ≤ text.length
  level : after.level = before.level
  kept : after.kept.Correct bound text

end DocComment.TypeExpr
