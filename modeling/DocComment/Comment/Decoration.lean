import DocComment.Text.Basic
import DocComment.Text.Lines

/-! The decoration of a comment: `/**` at the beginning, `*/` at the end, and a `*` in
front of every line but the first. `undecorate` takes all of it away together with
the spaces and tabs around each line and the empty lines at both ends; a comment
that has no decoration is read as well. -/

namespace DocComment.Comment

open Text

/-- A line without the `/**` that it begins with. -/
def dropOpening (l : List Char) : List Char :=
  match l.dropWhile isGap with
  | '/' :: '*' :: '*' :: r => r
  | _ => l

/-- Whether a text is a closing `*/` with nothing but spaces and tabs behind it. -/
def isClosing : List Char → Bool
  | '*' :: '/' :: r => r.all isGap
  | _ => false

/-- A line without the `*/` that it ends with. -/
def dropClosing : List Char → List Char
  | [] => []
  | c :: r => if isClosing (c :: r) then [] else c :: dropClosing r

/-- A line without the `*` that it begins with. -/
def dropMarker (l : List Char) : List Char :=
  match l.dropWhile isGap with
  | '*' :: r => r
  | _ => l

def modifyLast (f : List Char → List Char) : List (List Char) → List (List Char)
  | [] => []
  | [l] => [f l]
  | l :: ls => l :: modifyLast f ls

/-- The lines without opening and closing. They may stand on one line. -/
def dropEnds : List (List Char) → List (List Char)
  | [] => []
  | l :: ls => modifyLast dropClosing (dropOpening l :: ls)

/-- The lines without the markers of all but the first. -/
def dropMarkers : List (List Char) → List (List Char)
  | [] => []
  | l :: ls => l :: ls.map dropMarker

/-- Items without the empty ones at either end. -/
def dropEmptyEnds (ls : List (List Char)) : List (List Char) :=
  ((ls.dropWhile List.isEmpty).reverse.dropWhile List.isEmpty).reverse

/-- The lines of a comment without decoration. -/
def bareLines (s : List Char) : List (List Char) :=
  dropEmptyEnds ((dropMarkers (dropEnds (lines (unifyBreaks s)))).map (trim isGap))

def undecorate (comment : String) : String :=
  String.ofList (unlines (bareLines comment.toList))

end DocComment.Comment
