import DocComment.TypeExpr.Rule

/-! A reader of type expressions that keeps the answers of the costly rules. The
rules ask for a group or a generic twice at the same place, at every level again, so
without the kept answers the work doubles with each level. A reader is used for any
number of texts; each text starts with an empty memory. A memory is correct for a text when every
answer in it, found or not, is the answer that the rule gives there when nothing is kept. -/

namespace DocComment.TypeExpr

/-- A place where a costly rule was tried: the rule, the number of characters left and
the level. Within one text the characters left tell the position. -/
structure Place where
  rule : Costly
  left : Nat
  level : Nat
  deriving DecidableEq, Repr

/-- The level that reading is at, and the answers found so far, the latest first. -/
structure Memory where
  level : Nat := 0
  answers : List (Place × Option Parsed) := []

namespace Memory

/-- The kept answer of a costly rule, or else the answer that the rule gives now, which
is kept. -/
def remember (rule : Costly) (s : List Char) (p : OptionT (StateM Memory) Parsed) :
    OptionT (StateM Memory) Parsed := fun memory =>
  let place : Place := ⟨rule, s.length, memory.level⟩
  match memory.answers.lookup place with
  | some answer => (answer, memory)
  | none =>
    let (answer, after) := p.run memory
    (answer, { after with answers := (place, answer) :: after.answers })

/-- A level is entered before a nested expression and left after it, found or not. -/
def deeper (p : OptionT (StateM Memory) Parsed) : OptionT (StateM Memory) Parsed := fun memory =>
  let (answer, after) := p.run { memory with level := memory.level + 1 }
  (answer, { after with level := after.level - 1 })

end Memory

/-- Answers of costly rules are kept. -/
def Policy.keeping : Policy (StateM Memory) := ⟨Memory.remember, Memory.deeper⟩

/-- A reader with its bound on nesting and what it remembers of its last text. -/
structure Reader where
  bound : Int
  memory : Memory := {}

namespace Reader

/-- A reader with the bound that a caller asks for, as far as it is honoured. -/
def new (asked : Int) : Reader := { bound := Nesting.bounded asked }

/-- Reads one text; the reader that comes back remembers it. -/
def read (reader : Reader) (s : List Char) : Option TypeExpr × Reader :=
  let (answer, memory) := (whole .keeping reader.bound.toNat s).run {}
  (answer.map Prod.fst, { reader with memory })

def readAll (reader : Reader) : List (List Char) → List (Option TypeExpr) × Reader
  | [] => ([], reader)
  | s :: ss =>
    let (t, next) := reader.read s
    let (ts, last) := next.readAll ss
    (t :: ts, last)

end Reader

/-- The type that a text denotes under a bound on nesting, if it denotes one. -/
def parse? (asked : Int) (text : String) : Option TypeExpr :=
  ((Reader.new asked).read text.toList).1

/-- What the rules give for a text when no answer is kept. -/
def derive? (asked : Int) (text : String) : Option TypeExpr :=
  (whole .direct (Nesting.allowance asked) text.toList).run.map Prod.fst

/-- The answer of a costly rule when nothing is kept. -/
def Costly.answer : Costly → Nat → Rule Id
  | .group, allowed => Rule.group .direct (nested .direct allowed)
  | .generic, allowed => Rule.generic .direct (nested .direct allowed)

/-- Every kept answer is the one that its rule gives at that place of the text. -/
def Memory.Correct (bound : Nat) (text : List Char) (memory : Memory) : Prop :=
  ∀ place answer, memory.answers.lookup place = some answer →
    ∀ s, s <:+ text → s.length = place.left →
      answer = (place.rule.answer (bound - place.level) s).run

end DocComment.TypeExpr
