import DocComment.Occurrence.Basic
import DocComment.Text.Basic

/-! Occurrences that a text can hold, under a bound on nesting, and how they are written. Each kind
of body has its own form, given here by its characters, not by a reader. A text nests parentheses
when one opens inside another; a body in braces is read with all its levels or not at all, and
without it the tag is bare. -/

namespace DocComment.Occurrence

open Text

/-! ### Forms -/

/-- A name and the specialization behind it. -/
structure IsHead (name : List Char) (special : Option (List Char)) : Prop where
  name : isName (String.ofList name) = true
  special_filled : special ≠ some []
  special_part : ∀ l ∈ special, ∀ c ∈ l, isSpecializationPart c = true

def headText (name : List Char) (special : Option (List Char)) : List Char :=
  '@' :: (name ++ specializationText special)

/-- A description: lines none of which is empty or begins with `@`. -/
structure IsDescription (s : List Char) : Prop where
  filled : s ≠ []
  first : ∀ c ∈ s.head?, isBlank c = false ∧ c ≠ '(' ∧ c ≠ '\x7b'
  last : ∀ c ∈ s.getLast?, isBlank c = false
  noPair : ¬ ['\n', '\n'] <:+: s
  noTag : ¬ ['\n', '@'] <:+: s

/-- A signature, with a comma behind it or without. -/
inductive IsSignature : List Char → Prop where
  | plain {x : List Char} (hx : x ≠ []) (hc : ∀ c ∈ x, c ≠ ',' ∧ c ≠ ')') :
    IsSignature ('(' :: (x ++ [')']))
  | comma {x gap : List Char} (hx : x ≠ []) (hc : ∀ c ∈ x, c ≠ ',' ∧ c ≠ ')')
      (hg : ∀ c ∈ gap, isGap c = true) :
    IsSignature ('(' :: (x ++ ',' :: (gap ++ [')'])))

/-- A description inside braces. -/
structure IsInlineDescription (s : List Char) : Prop where
  filled : s ≠ []
  first : ∀ c ∈ s.head?, isGap c = false ∧ c ≠ '(' ∧ c ≠ '\x7b'
  inside : ∀ c ∈ s, c ≠ '\x7d' ∧ c ≠ '\n'

/-- A tag in braces, with no more levels of braces than are given. -/
inductive IsInline : Nat → List Char → Prop where
  | bare {n : Nat} {name : List Char} {special : Option (List Char)} (hh : IsHead name special) :
    IsInline (n + 1) ('\x7b' :: (headText name special ++ ['\x7d']))
  | description {n : Nat} {name gap s : List Char} {special : Option (List Char)}
      (hh : IsHead name special) (hg : ∀ c ∈ gap, isGap c = true) (hn : gap ≠ [])
      (hs : IsInlineDescription s) :
    IsInline (n + 1) ('\x7b' :: (headText name special ++ (gap ++ (s ++ ['\x7d']))))
  | signature {n : Nat} {name gap s : List Char} {special : Option (List Char)}
      (hh : IsHead name special) (hg : ∀ c ∈ gap, isGap c = true) (hs : IsSignature s) :
    IsInline (n + 1) ('\x7b' :: (headText name special ++ (gap ++ (s ++ ['\x7d']))))
  | inline {n : Nat} {name gap s : List Char} {special : Option (List Char)}
      (hh : IsHead name special) (hg : ∀ c ∈ gap, isGap c = true) (hs : IsInline n s) :
    IsInline (n + 1) ('\x7b' :: (headText name special ++ (gap ++ (s ++ ['\x7d']))))

/-- A body of a kind, under a bound on nesting. -/
def IsBody (allowed : Nat) : BodyKind → List Char → Prop
  | .bare, s => s = []
  | .description, s => IsDescription s
  | .signature, s => IsSignature s
  | .inline, s => IsInline allowed s

/-- An occurrence with a head and a body that fit, under a bound on nesting. -/
structure WellFormed (allowed : Nat) (o : Occurrence) : Prop where
  head : IsHead o.name.toList (o.specialization.map String.toList)
  body : IsBody allowed o.kind o.body.toList

/-- White space of a text is spaces, tabs and breaks only. -/
def PlainBlanks (s : List Char) : Prop :=
  ∀ c ∈ s, isBlank c = true → c = ' ' ∨ c = '\t' ∨ c = '\n'

/-! ### Written occurrences -/

def written (o : Occurrence) : List Char :=
  '@' :: (o.name.toList ++ specializationText (o.specialization.map String.toList) ++
    if o.kind = .bare then [] else ' ' :: o.body.toList)

/-- Occurrences, each on a line of its own. -/
def writtenAll : List Occurrence → List Char
  | [] => []
  | [o] => o.written
  | o :: os => o.written ++ '\n' :: writtenAll os

/-! ### Parentheses and levels of braces -/

/-- One pair of parentheses around a text without any. -/
def IsGroup (s : List Char) : Prop := ∃ x, s = '(' :: (x ++ [')']) ∧ '(' ∉ x ∧ ')' ∉ x

/-- A parenthesis opens behind another one before any is closed. -/
def Nests (s : List Char) : Prop := ∃ x, '(' :: (x ++ ['(']) <:+: s ∧ ')' ∉ x

/-- The levels of braces of a tag in braces, its own among them. Each level is closed where the
tag ends, so there are as many as closing braces at the end. -/
def braceLevels (body : List Char) : Nat := (body.reverse.takeWhile (· = '\x7d')).length

/-- An occurrence as far as a number of levels reaches. -/
def limited (allowed : Int) (o : Occurrence) : Occurrence :=
  if o.kind = .inline ∧ allowed < braceLevels o.body.toList then
    { o with kind := .bare, body := "" }
  else o

end DocComment.Occurrence
