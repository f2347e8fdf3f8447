import DocComment.Comment.Decoration
import DocComment.Regions

/-! The ways in which a comment may be laid out. Each line stands behind a star with any
spaces and tabs around the star and behind the line, lines end in any of the three usual
ways, and empty lines keep the groups of lines apart. `Parts` says which lines may stand
for a summary, a description and tags. -/

namespace DocComment.Comment

open Text

def IsGap (s : List Char) : Prop := ∀ c ∈ s, isGap c = true

instance (s : List Char) : Decidable (IsGap s) :=
  decidable_of_iff (s.all isGap = true) List.all_eq_true

inductive IsBreak : List Char → Prop where
  | lf : IsBreak ['\n']
  | crlf : IsBreak ['\r', '\n']
  | cr : IsBreak ['\r']

/-- A line behind its star, with its end. -/
inductive LaidLine (l : List Char) : List Char → Prop where
  | mk {indent before behind ending : List Char} (hi : IsGap indent) (hb : IsGap before)
      (ha : IsGap behind) (he : IsBreak ending) :
    LaidLine l (indent ++ '*' :: (before ++ (l ++ (behind ++ ending))))

/-- Lines behind their stars, one after the other. -/
inductive LaidLines : List (List Char) → List Char → Prop where
  | nil : LaidLines [] []
  | cons {l s : List Char} {ls : List (List Char)} {r : List Char} (h : LaidLine l s)
      (hr : LaidLines ls r) : LaidLines (l :: ls) (s ++ r)

/-- A comment that holds lines: an opening on a line of its own, the lines, and a closing
on the last line. -/
inductive LaidOut (ls : List (List Char)) : List Char → Prop where
  | mk {ending body indent : List Char} (he : IsBreak ending) (hb : LaidLines ls body)
      (hi : IsGap indent) :
    LaidOut ls ('/' :: '*' :: '*' :: (ending ++ (body ++ (indent ++ ['*', '/']))))

/-- Groups of lines with one or more empty lines between each two. -/
inductive Spaced : List (List (List Char)) → List (List Char) → Prop where
  | nil : Spaced [] []
  | one (g : List (List Char)) : Spaced [g] g
  | more {g h : List (List Char)} {gs : List (List (List Char))} {ls : List (List Char)} (n : Nat)
      (hs : Spaced (h :: gs) ls) :
    Spaced (g :: h :: gs) (g ++ (List.replicate (n + 1) [] ++ ls))

/-- A line without a break in it and without spaces and tabs at its ends. -/
structure IsLine (l : List Char) : Prop where
  noBreak : ∀ c ∈ l, c ≠ '\r' ∧ c ≠ '\n'
  head : ∀ c ∈ l.head?, isGap c = false
  last : ∀ c ∈ l.getLast?, isGap c = false

instance (l : List Char) : Decidable (IsLine l) :=
  decidable_of_iff
    ((l.all fun c => c != '\r' && c != '\n') = true ∧ (l.head?.all fun c => !isGap c) = true ∧
      (l.getLast?.all fun c => !isGap c) = true)
    ⟨fun ⟨hn, hh, hl⟩ => ⟨by simpa using hn, by simpa [Option.all_eq_true] using hh,
        by simpa [Option.all_eq_true] using hl⟩,
      fun h => ⟨by simpa using h.noBreak, by simpa [Option.all_eq_true] using h.head,
        by simpa [Option.all_eq_true] using h.last⟩⟩

/-- Lines that are told apart as a summary, a description and tags. -/
structure Parts (summary description tags : List (List Char)) : Prop where
  line : ∀ l ∈ summary ++ (description ++ tags), IsLine l
  noTag : ∀ l ∈ summary ++ description, Regions.startsTag l = false
  summary_filled : ∀ l ∈ summary, l ≠ []
  summary_period : ∀ l ∈ summary.dropLast, l.getLast? ≠ some '.'
  description_head : description.head? ≠ some []
  description_last : description.getLast? ≠ some []
  description_nil : summary = [] → description = []
  tags_head : ∀ l ∈ tags.head?, Regions.startsTag l = true
  tags_last : tags.getLast? ≠ some []
  some_filled : summary ≠ [] ∨ tags ≠ []

instance (summary description tags : List (List Char)) :
    Decidable (Parts summary description tags) :=
  decidable_of_iff
    ((∀ l ∈ summary ++ (description ++ tags), IsLine l) ∧
      (∀ l ∈ summary ++ description, Regions.startsTag l = false) ∧ (∀ l ∈ summary, l ≠ []) ∧
      (∀ l ∈ summary.dropLast, l.getLast? ≠ some '.') ∧ description.head? ≠ some [] ∧
      description.getLast? ≠ some [] ∧ (summary = [] → description = []) ∧
      (∀ l ∈ tags.head?, Regions.startsTag l = true) ∧ tags.getLast? ≠ some [] ∧
      (summary ≠ [] ∨ tags ≠ []))
    ⟨fun ⟨h₁, h₂, h₃, h₄, h₅, h₆, h₇, h₈, h₉, h₁₀⟩ => ⟨h₁, h₂, h₃, h₄, h₅, h₆, h₇, h₈, h₉, h₁₀⟩,
      fun h => ⟨h.line, h.noTag, h.summary_filled, h.summary_period, h.description_head,
        h.description_last, h.description_nil, h.tags_head, h.tags_last, h.some_filled⟩⟩

def filled (gs : List (List (List Char))) : List (List (List Char)) :=
  gs.filter fun g => !g.isEmpty

end DocComment.Comment
