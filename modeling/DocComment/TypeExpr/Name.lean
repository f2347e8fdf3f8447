import DocComment.Text.Digit
import DocComment.Text.Basic

/-! The words of type expressions. A keyword is recognized by its letters alone,
also where an identifier goes on behind it. A class name is a sequence of labels
with backslashes between them and possibly one in front; a backslash that no label
follows does not belong to it. -/

namespace DocComment.TypeExpr

open Text

def keywords : List String :=
  ["array", "bool", "callable", "false", "float", "int", "mixed", "null", "object", "resource",
    "self", "static", "string", "true", "void", "$this"]

/-- The keyword that a text begins with, and what follows it. No keyword begins
another, so there is at most one. -/
def keyword? (s : List Char) : Option (String × List Char) :=
  keywords.findSome? fun k => (after? k.toList s).map fun r => (k, r)

/-- A character that may begin a label: a letter, an underscore, or anything from
`\x7f` on. -/
def isLabelStart (c : Char) : Bool := isLetter c || c == '_' || '\x7f' ≤ c

def isLabelPart (c : Char) : Bool := isLabelStart c || isDigit c

/-- What a class name goes on with after the first character of a label. -/
def classTail : List Char → List Char × List Char
  | '\\' :: c :: r =>
    if isLabelStart c then
      let (name, q) := classTail r
      ('\\' :: c :: name, q)
    else ([], '\\' :: c :: r)
  | c :: r =>
    if isLabelPart c then
      let (name, q) := classTail r
      (c :: name, q)
    else ([], c :: r)
  | [] => ([], [])

/-- The longest class name that a text begins with, and what follows it. -/
def className? : List Char → Option (List Char × List Char)
  | '\\' :: c :: r =>
    if isLabelStart c then
      let (name, q) := classTail r
      some ('\\' :: c :: name, q)
    else none
  | c :: r =>
    if isLabelStart c then
      let (name, q) := classTail r
      some (c :: name, q)
    else none
  | [] => none

/-- The number of pairs of square brackets that a text begins with, and what follows
them. -/
def levels : List Char → Nat × List Char
  | '[' :: ']' :: r =>
    let (n, q) := levels r
    (n + 1, q)
  | r => (0, r)

end DocComment.TypeExpr
