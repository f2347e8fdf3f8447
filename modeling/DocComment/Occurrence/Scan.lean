import DocComment.Nesting
import DocComment.Occurrence.Found
import DocComment.Text.Lines

/-! The tags of a text. A tag is looked for at the beginning of every line; behind a description,
which ends with its line breaks, the next line begins, and behind any other tag the line it stands
on is over. `pieces` cuts a text into tags and the text between them, and `text_pieces` says that
the pieces are the whole. The lines that begin as a tag does and the tags that are read are told by
their positions. A tag takes up the text that it was written as. -/

namespace DocComment

/-- A part of a text: one tag, or text that is no part of a tag. -/
inductive Piece where
  | tag (found : Found)
  | other (text : List Char)

namespace Piece

def text : Piece → List Char
  | .tag found => found.written
  | .other text => text

def occurrence? : Piece → Option Occurrence
  | .tag found => some found.occurrence
  | .other _ => none

def found? : Piece → Option Found
  | .tag found => some found
  | .other _ => none

/-- Whether the bound on nesting stopped a brace in this piece. -/
def stopped : Piece → Bool
  | .tag found => found.stopped
  | .other _ => false

end Piece

namespace Occurrence

open Text

/-- The pieces of a text that begins at the beginning of a line. -/
def pieces (allowed : Nat) (s : List Char) : List Piece :=
  if hs : s = [] then []
  else match h : tagAt? allowed s with
    | none =>
      have := length_cutLine_lt hs
      .other (cutLine s).1 :: pieces allowed (cutLine s).2
    | some found =>
      have := length_rest_lt h
      if found.occurrence.kind = .description then .tag found :: pieces allowed found.rest
      else
        have := length_cutLine_le found.rest
        .tag found :: .other (cutLine found.rest).1 :: pieces allowed (cutLine found.rest).2
termination_by s.length
decreasing_by all_goals omega

theorem text_pieces (allowed : Nat) (s : List Char) :
    (pieces allowed s).flatMap Piece.text = s := by
  fun_induction pieces allowed s with
  | case1 => rfl
  | case2 s hs h hlt ih => simp [Piece.text, ih, cutLine_append]
  | case3 s hs found h hlt hk ih => simp [Piece.text, ih, ← eq_of_tagAt? h]
  | case4 s hs found h hlt hk hle ih => simp [Piece.text, ih, cutLine_append, ← eq_of_tagAt? h]

/-- Where pieces stand in a text, counted from a position. -/
def located (position : Nat) : List Piece → List (Nat × Piece)
  | [] => []
  | p :: ps => (position, p) :: located (position + p.text.length) ps

/-- The tags of a text, in order, under a bound on nesting. -/
def scan (asked : Int) (text : String) : List Occurrence :=
  (pieces (Nesting.allowance asked) text.toList).filterMap Piece.occurrence?

/-! ### Positions -/

/-- Whether a text begins with `@` and a character that begins a name. -/
def beginsTag : List Char → Bool
  | '@' :: c :: _ => isNameStart c
  | _ => false

/-- Whether a position is the first one or stands behind a break. -/
def isLineStart (s : List Char) (p : Nat) : Bool := p == 0 || s[p - 1]? == some '\n'

/-- Whether a line that begins as a tag does begins at a position. -/
def isTagLine (s : List Char) (p : Nat) : Bool := isLineStart s p && beginsTag (s.drop p)

/-- The positions of the tag lines of a text, in order. -/
def tagLines (s : List Char) : List Nat := (List.range s.length).filter (isTagLine s)

/-- The tags among pieces with the positions where they stand. -/
def tagsAmong (position : Nat) (ps : List Piece) : List (Nat × Found) :=
  (located position ps).filterMap fun (p, piece) => piece.found?.map fun found => (p, found)

/-- The tags of a text with their positions, in order. -/
def tagsOf (allowed : Nat) (s : List Char) : List (Nat × Found) :=
  tagsAmong 0 (pieces allowed s)

/-- A tag takes up a position inside its body, between an opening parenthesis and a closing
one. The body stands at the end of what the tag takes up. -/
structure Hides (tag : Nat × Found) (p : Nat) : Prop where
  kind : tag.2.occurrence.kind = .signature ∨ tag.2.occurrence.kind = .inline
  inside : tag.1 < p ∧ p < tag.1 + tag.2.written.length
  enclosed : ∃ lead before behind,
    tag.2.written = lead ++ (before ++ behind) ∧
      tag.2.occurrence.body.toList = before ++ behind ∧
      tag.1 + (lead ++ before).length = p ∧ '(' ∈ before ∧ ')' ∈ behind

end Occurrence

end DocComment
