import DocComment.Nesting
import DocComment.Text.Digit
import DocComment.Value

/-! Settings of a reader. Each comes from the caller, else from the environment, else
it has a default; the nesting depth is checked wherever it comes from. -/

namespace DocComment

structure Config where
  maxDepth : Int
  disabledTags : List String
  extensions : List String
  deriving DecidableEq, Repr

/-- The variables of the environment that settings are taken from. -/
structure Environment where
  maxDepth : Option String := none
  disabledTags : Option String := none
  extensions : Option String := none

/-- Settings as a caller gives them. A depth may be anything. -/
structure Settings where
  maxDepth : Option Value := none
  disabledTags : Option (List String) := none
  extensions : Option (List String) := none

inductive ConfigError where
  | depthText (text : String)
  | depthType
  | depthNotPositive (got : Int)
  | depthTooLarge (got : Int)
  | noTextList (key : String)
  | fileMissing (path : String)
  | fileMalformed
  | noMapping (typeName : String)
  | unknownKeys (keys : List Key)
  deriving DecidableEq, Repr

namespace Config

def depthKey : String := "max_nesting_depth"

def disabledKey : String := "disabled_tags"

def extensionsKey : String := "markdown_extensions"

end Config

def ConfigError.about (key message : String) : String :=
  message ++ " (key " ++ String.ofList (Text.quoted key.toList) ++ ")"

def ConfigError.message : ConfigError → String
  | .depthText text =>
    about Config.depthKey
      ("Nesting depth must be an integer, got " ++ String.ofList (Text.quoted text.toList))
  | .depthType => about Config.depthKey "Nesting depth must be an integer"
  | .depthNotPositive got =>
    about Config.depthKey ("Nesting depth must be positive, got " ++ toString got)
  | .depthTooLarge got =>
    about Config.depthKey
      ("Nesting depth must be at most " ++ toString Nesting.ceiling ++ ", got " ++ toString got)
  | .noTextList key => about key "Expected a list of strings"
  | .fileMissing path => "Config file not found: " ++ path
  | .fileMalformed => "Invalid YAML in config file"
  | .noMapping typeName => "Config must be a YAML mapping, got " ++ typeName
  | .unknownKeys keys =>
    "Unknown config keys: " ++ String.ofList (Value.bracketed (keys.map Key.display))

namespace Config

open Text

/-- A depth that is honoured: positive and not beyond the ceiling. -/
def checkDepth (n : Int) : Except ConfigError Int :=
  if n < 1 then .error (.depthNotPositive n)
  else if Nesting.ceiling < n then .error (.depthTooLarge n)
  else .ok n

/-- The depth that a value gives; only an integer gives one. -/
def depthOf : Value → Except ConfigError Int
  | .integer n => checkDepth n
  | _ => .error .depthType

def cutAtCommas : List Char → List (List Char)
  | [] => [[]]
  | c :: r =>
    if c = ',' then [] :: cutAtCommas r
    else match cutAtCommas r with
      | [] => [[c]]
      | p :: ps => (c :: p) :: ps

/-- The items of a text with commas between them: white space around an item is
dropped, and so are empty items. -/
def items (s : String) : List String :=
  (((cutAtCommas s.toList).map strip).filter fun p => !p.isEmpty).map String.ofList

/-! ### Lists between commas, as they may be written -/

/-- What a list between commas can hold. -/
structure IsItem (x : String) : Prop where
  ne_empty : x ≠ ""
  notMem : ',' ∉ x.toList
  head : ∀ c ∈ x.toList.head?, isBlank c = false
  last : ∀ c ∈ x.toList.getLast?, isBlank c = false

/-- Nothing but white space, or nothing. -/
def IsBlank (s : String) : Prop := ∀ c ∈ s.toList, isBlank c = true

/-- The parts between commas, each with an item or without one, hold the items of a list. -/
inductive Hold : List String → List String → Prop where
  | nil : Hold [] []
  | blank {g : String} {ps xs : List String} (hg : IsBlank g) (h : Hold ps xs) : Hold (g :: ps) xs
  | item {a x b : String} {ps xs : List String} (ha : IsBlank a) (hb : IsBlank b) (h : Hold ps xs) :
    Hold ((a ++ x ++ b) :: ps) (x :: xs)

/-- A text that holds the items of a list, in their order, between commas. -/
def IsListOf (text : String) (xs : List String) : Prop :=
  ∃ parts, Hold parts xs ∧ text = ",".intercalate parts

/-! ### Settings -/

/-- The depth that the environment gives, before it is checked. -/
def environmentDepth (e : Environment) : Except ConfigError Int :=
  match e.maxDepth with
  | none => .ok Nesting.default
  | some s =>
    match integer? s.toList with
    | some n => .ok n
    | none => .error (.depthText s)

def environmentDisabled (e : Environment) : List String :=
  (e.disabledTags.map items).getD []

def environmentExtensions (e : Environment) : List String :=
  (e.extensions.map items).getD ["extra"]

/-- Settings of a caller, completed from the environment. -/
def build (e : Environment) (s : Settings) : Except ConfigError Config := do
  let depth ← match s.maxDepth with
    | some v => depthOf v
    | none => environmentDepth e >>= checkDepth
  pure {
    maxDepth := depth
    disabledTags := s.disabledTags.getD (environmentDisabled e)
    extensions := s.extensions.getD (environmentExtensions e) }

end Config

end DocComment
