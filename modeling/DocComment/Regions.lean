/-! The three regions of a comment without decoration: a summary, a description and
the tags. Tags begin at the first line that begins with `@`. The summary ends at the
first line end where only line breaks remain before a tag, where the line ends with a
period and a line break follows, where two line breaks follow, or where the text
ends; the description takes what is left before the tags. The line breaks at the end
of a region belong to neither side. -/

namespace DocComment

/-- The regions of a comment, in the order they stand in. -/
structure Regions where
  summary : String
  description : String
  tags : String
  deriving DecidableEq, Repr

namespace Regions

def startsTag : List Char → Bool
  | c :: _ => c == '@'
  | [] => false

/-- A summary and what follows its line breaks. `period` tells whether the character
before is a period of the same line. -/
def cutSummary (period : Bool) : List Char → List Char × List Char
  | [] => ([], [])
  | c :: r =>
    if c = '\n' then
      let q := r.dropWhile (· = '\n')
      if startsTag q || period || r.head? == some '\n' then ([], q)
      else
        let (l, q) := cutSummary false r
        (c :: l, q)
    else
      let (l, q) := cutSummary (c == '.') r
      (c :: l, q)

/-- A description and the tags behind it. -/
def cutDescription : List Char → List Char × List Char
  | [] => ([], [])
  | c :: r =>
    if c = '\n' && startsTag (r.dropWhile (· = '\n')) then ([], r.dropWhile (· = '\n'))
    else
      let (l, q) := cutDescription r
      (c :: l, q)

/-- A region and what follows it; where tags begin there is no region. -/
def unlessTag (cut : List Char → List Char × List Char) (s : List Char) :
    List Char × List Char :=
  if startsTag s then ([], s) else cut s

def cut (s : List Char) : List Char × List Char × List Char :=
  let (summary, r) := unlessTag (cutSummary false) s
  let (description, tags) := unlessTag cutDescription r
  (summary, description, tags)

/-- The regions of a comment; the empty comment has none. -/
def of? (text : String) : Option Regions :=
  match text.toList with
  | [] => none
  | s =>
    let (summary, description, tags) := cut s
    some ⟨String.ofList summary, String.ofList description, String.ofList tags⟩

end Regions

end DocComment
