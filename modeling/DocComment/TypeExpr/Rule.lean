import DocComment.Nesting
import DocComment.Text.Basic
import DocComment.TypeExpr.Name
import DocComment.TypeExpr.Basic

/-! The rules that read type expressions:

    expression = type *( "|" type )
    type       = array / keyword / class-name
    array      = leveled / group / generic
    leveled    = ( keyword / generic / class-name / group ) 1*"[]"
    group      = "(" expression ")" 1*"[]"
    generic    = ( "array" / class-name ) "<" [ expression "," *WSP ] expression ">"

Alternatives are tried in order and the first that matches counts. Of the bases of
`leveled` only the first that matches is looked at. Every rule takes the text that
is left and gives a type together with what is left behind it. An expression inside
parentheses or angle brackets is one level deeper; the number of levels still
allowed is the measure by which reading ends. The rules say where a caller may keep
answers (`Policy.remember`) and where a level begins (`Policy.deeper`); with
`Policy.direct` both do nothing. -/

namespace DocComment.TypeExpr

open Text

abbrev Parsed := TypeExpr × List Char

/-- A rule may fail, and it may keep answers on the way. -/
abbrev Rule (m : Type → Type) := List Char → OptionT m Parsed

/-- The rules whose answers are worth keeping: the others try them more than once at
one place. -/
inductive Costly where
  | group
  | generic
  deriving DecidableEq, Repr

/-- What is done around a costly rule and around a nested expression. -/
structure Policy (m : Type → Type) where
  remember : Costly → List Char → OptionT m Parsed → OptionT m Parsed
  deeper : OptionT m Parsed → OptionT m Parsed

/-- Every rule is tried whenever it is asked for. -/
def Policy.direct : Policy Id := ⟨fun _ _ p => p, id⟩

/-- The characters that end a nested expression. -/
abbrev Stop := Char → Bool

namespace Rule

variable {m : Type → Type} [Monad m]

/-- The answer of a rule that keeps nothing. -/
def settled : Option Parsed → OptionT m Parsed
  | some p => pure p
  | none => failure

def keyword : Rule m := fun s =>
  settled ((keyword? s).map fun (k, r) => (.keyword k, r))

def className : Rule m := fun s =>
  settled ((className? s).map fun (n, r) => (.className (String.ofList n), r))

/-- A base with the levels behind it, of which there has to be one. -/
def withLevels : Parsed → OptionT m Parsed
  | (base, s) =>
    let (n, r) := levels s
    settled (if h : 0 < n then some (.array base ⟨n, h⟩, r) else none)

/-- The collection of a generic and what follows it. A keyword other than `array` is
no collection, nor is the class name that it may begin. -/
def collection? (s : List Char) : Option (Option String × List Char) :=
  match keyword? s with
  | some (k, r) => if k = "array" then some (none, r) else none
  | none => (className? s).map fun (n, r) => (some (String.ofList n), r)

variable (policy : Policy m) (nested : Stop → Rule m)

/-- A type in parentheses with the levels behind it. An answer is kept where a parenthesis opens;
elsewhere the rule fails at once, and keeping that answer too, as `Walk.group` does, changes
nothing. -/
def group : Rule m
  | '(' :: r => policy.remember .group ('(' :: r) do
    let (t, q) ← nested (· = ')') r
    match q with
    | ')' :: q => withLevels (t, q)
    | _ => failure
  | _ => failure

/-- A collection with its types in angle brackets. An answer is kept where a collection and a bracket
stand; elsewhere the rule fails at once, and keeping that answer too, as `Walk.generic` does, changes
nothing. -/
def generic : Rule m := fun s =>
  match collection? s with
  | some (c, '<' :: r) => policy.remember .generic s do
    let (t, q) ← nested (fun d => d = ',' || d = '>') r
    match q with
    | '>' :: q => pure (.generic c t, q)
    | ',' :: q =>
      let (v, q) ← nested (· = '>') (q.dropWhile isGap)
      match q with
      | '>' :: q => pure (.keyed c t v, q)
      | _ => failure
    | _ => failure
  | _ => failure

def leveled : Rule m := fun s => do
  let base ← keyword s <|> generic policy nested s <|> className s <|> group policy nested s
  withLevels base

def array : Rule m := fun s =>
  leveled policy nested s <|> group policy nested s <|> generic policy nested s

def type : Rule m := fun s =>
  array policy nested s <|> keyword s <|> className s

/-- Types with bars between them, up to the end of the text or to a character that
stops; `fuel` bounds their number. -/
def members (stop : Stop) :
    Nat → List Char → OptionT m ((TypeExpr × List TypeExpr) × List Char)
  | 0, _ => failure
  | fuel + 1, s => do
    let (t, r) ← type policy nested s
    match r with
    | [] => pure ((t, []), [])
    | c :: q =>
      if stop c then pure ((t, []), r)
      else if c = '|' then
        let ((u, us), q) ← members stop fuel q
        pure ((t, u :: us), q)
      else failure

/-- An expression up to the end of the text or to a character that stops. A type takes
at least one character, so there are no more members than characters. -/
def expression (stop : Stop) : Rule m := fun s => do
  let ((t, ts), r) ← members policy nested stop s.length s
  pure (join t ts, r)

end Rule

/-- An expression one level deeper, as long as levels are allowed. -/
def nested {m : Type → Type} [Monad m] (policy : Policy m) : Nat → Stop → Rule m
  | 0, _ => fun _ => failure
  | allowed + 1, stop => fun s =>
    policy.deeper (Rule.expression policy (nested policy allowed) stop s)

def whole {m : Type → Type} [Monad m] (policy : Policy m) (allowed : Nat) : Rule m :=
  Rule.expression policy (nested policy allowed) fun _ => false

end DocComment.TypeExpr
