import DocComment.Regions
import Mathlib.Order.Bounds.Defs

/-! Where the regions of a text end, told by positions of the text and not by a reader. What
separates two regions is the whole run of line breaks at a line end. -/

namespace DocComment.Regions

/-- The line breaks at a position, up to the next other character. -/
def breaksAt (s : List Char) (e : Nat) : List Char := (s.drop e).takeWhile (· = '\n')

/-- Line breaks stand at a position, and `@` behind them. -/
def BeforeTag (s : List Char) (e : Nat) : Prop :=
  breaksAt s e ≠ [] ∧ s[e + (breaksAt s e).length]? = some '@'

/-- A line end where a summary is over: before a tag, behind a period, before an empty line
or at the end of the text. -/
inductive EndsSummary (s : List Char) (e : Nat) : Prop where
  | tag (h : BeforeTag s e)
  | period (hb : breaksAt s e ≠ []) (he : 0 < e) (hp : s[e - 1]? = some '.')
  | blank (h : 2 ≤ (breaksAt s e).length)
  | text (h : e = s.length)

/-- A line that begins with `@` begins at a position. -/
def TagStarts (s : List Char) (p : Nat) : Prop :=
  (p = 0 ∨ s[p - 1]? = some '\n') ∧ s[p]? = some '@'

/-- A region that goes up to the first breaks with a tag behind them, or to the end of the text
if there are none, and the breaks that end it. -/
def UpToTag (s region breaks : List Char) : Prop :=
  (∃ e, IsLeast {e | BeforeTag s e} e ∧ region = s.take e ∧ breaks = breaksAt s e) ∨
    (∀ e, ¬ BeforeTag s e) ∧ region = s ∧ breaks = []

/-- A text as a summary, a description and tags with breaks between them, each region with
the extent it has to have. -/
structure IsCut (text summary breaks description breaks' tags : List Char) : Prop where
  whole : text = summary ++ (breaks ++ (description ++ (breaks' ++ tags)))
  breaks_only : ∀ c ∈ breaks ++ breaks', c = '\n'
  tags_first : (∃ p, IsLeast {p | TagStarts text p} p ∧ tags = text.drop p) ∨
    (∀ p, ¬ TagStarts text p) ∧ tags = []
  summary_empty : text.head? = some '@' → summary = [] ∧ breaks = []
  summary_end : text.head? ≠ some '@' →
    ∃ e, IsLeast {e | EndsSummary text e} e ∧ summary = text.take e ∧ breaks = breaksAt text e
  description_end : description ++ (breaks' ++ tags) ≠ [] →
    (description ++ (breaks' ++ tags)).head? ≠ some '@' →
      UpToTag (description ++ (breaks' ++ tags)) description breaks'

end DocComment.Regions
