import DocComment.Text.Digit

/-! Tag occurrences as they stand in a comment: a name, possibly a specialization, and a body of one
of four kinds. A name begins with a letter or a backslash and goes on with letters, digits,
backslashes, underscores and hyphens; a specialization is a colon with letters, digits and hyphens
behind it. All of them are ASCII. -/

namespace DocComment

/-- What follows the name of a tag. -/
inductive BodyKind where
  | bare
  | description
  | signature
  | inline
  deriving DecidableEq, Repr

def BodyKind.label : BodyKind → String
  | .bare => "none"
  | .description => "description"
  | .signature => "signature"
  | .inline => "inline-phpdoc"

/-- One tag as it is written. A bare tag has the empty body. -/
structure Occurrence where
  name : String
  specialization : Option String
  kind : BodyKind
  body : String
  deriving DecidableEq, Repr

def Occurrence.strings (o : Occurrence) : List String :=
  o.name :: (o.specialization.toList ++ [o.body])

namespace Occurrence

open Text

def isNameStart (c : Char) : Bool := isLetter c || c == '\\'

def isNamePart (c : Char) : Bool :=
  isLetter c || isDigit c || c == '\\' || c == '_' || c == '-'

def isSpecializationPart (c : Char) : Bool := isLetter c || isDigit c || c == '-'

/-- The longest name that a text begins with, and what follows it. -/
def name? : List Char → Option (List Char × List Char)
  | c :: r =>
    if isNameStart c then some (c :: r.takeWhile isNamePart, r.dropWhile isNamePart) else none
  | [] => none

theorem eq_of_name? {s n r : List Char} (h : name? s = some (n, r)) : s = n ++ r := by
  cases s with
  | nil => simp [name?] at h
  | cons c s =>
    simp only [name?] at h
    split at h
    · simp only [Option.some.injEq, Prod.mk.injEq] at h
      obtain ⟨rfl, rfl⟩ := h
      simp
    · exact absurd h (by simp)

/-- A text that is a name from end to end. -/
def isName (s : String) : Bool :=
  match s.toList with
  | c :: r => isNameStart c && r.all isNamePart
  | [] => false

/-- The specialization behind a name, if there is one, and what follows it. -/
def splitSpecialization : List Char → Option (List Char) × List Char
  | ':' :: r =>
    match r.takeWhile isSpecializationPart with
    | [] => (none, ':' :: r)
    | l => (some l, r.dropWhile isSpecializationPart)
  | r => (none, r)

def specializationText : Option (List Char) → List Char
  | none => []
  | some l => ':' :: l

theorem splitSpecialization_append (s : List Char) :
    specializationText (splitSpecialization s).1 ++ (splitSpecialization s).2 = s := by
  unfold splitSpecialization
  split
  next r =>
    split
    · rfl
    · simp [specializationText]
  next => rfl

end Occurrence

end DocComment
