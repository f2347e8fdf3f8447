import DocComment.Text.Basic
import DocComment.Text.Digit

/-! Semantic versions: three numbers without leading zeros and with periods between
them, possibly followed by a hyphen and identifiers with periods between them. Readers
take the longest version that a text begins with. -/

namespace DocComment.Version

open Text

/-- The longest number that a text begins with: `0`, or digits that do not begin with
it. -/
def number? : List Char → Option (List Char × List Char)
  | '0' :: r => some (['0'], r)
  | c :: r => if isDigit c then some (c :: r.takeWhile isDigit, r.dropWhile isDigit) else none
  | [] => none

def isIdentifierPart (c : Char) : Bool := isLetter c || isDigit c || c == '-'

def dotNumber? : List Char → Option (List Char × List Char)
  | '.' :: s => (number? s).map fun (n, r) => ('.' :: n, r)
  | _ => none

/-- What identifiers go on with behind a character of one. -/
def identifierTail : List Char → List Char × List Char
  | '.' :: c :: r =>
    if isIdentifierPart c then
      let (l, q) := identifierTail r
      ('.' :: c :: l, q)
    else ([], '.' :: c :: r)
  | c :: r =>
    if isIdentifierPart c then
      let (l, q) := identifierTail r
      (c :: l, q)
    else ([], c :: r)
  | [] => ([], [])

/-- The hyphen and the identifiers behind the numbers; nothing if there are none. -/
def preRelease : List Char → List Char × List Char
  | '-' :: c :: r =>
    if isIdentifierPart c then
      let (l, q) := identifierTail r
      ('-' :: c :: l, q)
    else ([], '-' :: c :: r)
  | r => ([], r)

/-- The longest version that a text begins with, and what follows it. -/
def take? (s : List Char) : Option (List Char × List Char) := do
  let (major, r) ← number? s
  let (minor, r) ← dotNumber? r
  let (patch, r) ← dotNumber? r
  let (pre, r) := preRelease r
  pure (major ++ minor ++ patch ++ pre, r)

/-- A version that a text may begin with. -/
def leading (s : List Char) : Option (List Char) × List Char :=
  match take? s with
  | some (v, r) => (some v, r)
  | none => (none, s)

/-- A version behind a colon that a text may begin with. -/
def ending (s : List Char) : Option (List Char) × List Char :=
  match s with
  | ':' :: r =>
    match take? r with
    | some (v, q) => (some v, q)
    | none => (none, s)
  | _ => (none, s)

/-- The text behind versions; none if it is empty. -/
def remark (s : List Char) : Option (List Char) :=
  match s.dropWhile isGap with
  | [] => none
  | r => some r

end DocComment.Version
