import DocComment.Comment.Layout

/-! Comments as they are written: the lines of the regions that are not empty, each behind a
star and a space, with a bare star between each two regions. `Tidy` says what the regions
of a comment are like. A text is bare when there is nothing on it to take off. -/

namespace DocComment.Comment

open Text

/-- The lines of a region; an empty region has none. -/
def regionLines (s : List Char) : List (List Char) := if s.isEmpty then [] else lines s

def starred (l : List Char) : List Char := ' ' :: '*' :: ' ' :: l

/-- Groups of lines behind their stars, with a bare star between each two groups. -/
def starredGroups : List (List (List Char)) → List (List Char)
  | [] => []
  | [g] => g.map starred
  | g :: gs => g.map starred ++ [' ', '*'] :: starredGroups gs

def decorate (gs : List (List (List Char))) : List Char :=
  unlines (['/', '*', '*'] :: (starredGroups gs ++ [[' ', '*', '/']]))

def ofRegions (r : Regions) : String :=
  String.ofList (decorate (filled
    [regionLines r.summary.toList, regionLines r.description.toList, regionLines r.tags.toList]))

/-- A region without returns, and with no space, tab or break at its ends or those of a line. -/
structure TidyText (s : String) : Prop where
  noReturn : '\r' ∉ s.toList
  ends : ∀ c, c ∈ s.toList.head? ∨ c ∈ s.toList.getLast? → c ≠ ' ' ∧ c ≠ '\t' ∧ c ≠ '\n'
  line_ends : ∀ l ∈ lines s.toList, ∀ c,
    c ∈ l.head? ∨ c ∈ l.getLast? → c ≠ ' ' ∧ c ≠ '\t'

/-- Regions as a comment has them. -/
structure Tidy (r : Regions) : Prop where
  summary : TidyText r.summary
  description : TidyText r.description
  tags : TidyText r.tags
  summary_filled : ∀ l ∈ regionLines r.summary.toList, l ≠ []
  summary_noTag : ∀ l ∈ regionLines r.summary.toList, l.head? ≠ some '@'
  summary_period : ∀ l ∈ (regionLines r.summary.toList).dropLast, l.getLast? ≠ some '.'
  description_noTag : ∀ l ∈ regionLines r.description.toList, l.head? ≠ some '@'
  description_empty : r.summary = "" → r.description = ""
  tags_start : r.tags = "" ∨ r.tags.toList.head? = some '@'

/-! ### Texts without decoration -/

/-- A tidy text that does not begin as a comment, does not end as one, and has no line behind
a star but perhaps the first. -/
structure BareText (s : String) : Prop extends TidyText s where
  opening : ∀ l ∈ (lines s.toList).head?, ¬ ['/', '*', '*'] <+: l
  closing : ∀ l ∈ (lines s.toList).getLast?, ¬ ['*', '/'] <:+ l
  marker : ∀ l ∈ (lines s.toList).tail, l.head? ≠ some '*'

/-- What is left of the line at a place among `n` lines. The first line may have an opening,
the last a closing and each but the first a marker. -/
def stripLine (n i : Nat) (l : List Char) : List Char :=
  let opened := if i = 0 then dropOpening l else l
  let closed := if i + 1 = n then dropClosing opened else opened
  trim isGap (if i = 0 then closed else dropMarker closed)

/-- What is left of each line of a comment. -/
def strippedLines (s : List Char) : List (List Char) :=
  let ls := lines (unifyBreaks s)
  ls.mapIdx (stripLine ls.length)

/-- A line is left at a place. -/
def IsFilled (ls : List (List Char)) (i : Nat) : Prop := ∃ l, ls[i]? = some l ∧ l ≠ []

end DocComment.Comment
