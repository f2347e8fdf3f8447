import DocComment.Html
import DocComment.Text.Basic
import DocComment.Text.Lines

/-! Rendered text. A block keeps the text it was made from beside its HTML; the empty
text gives the empty block. `plain` writes one escaped paragraph for each group of
lines, `markdown` the paragraphs of a text without other constructs. -/

namespace DocComment

/-- A text and its rendered form. -/
structure Block where
  source : String := ""
  html : String := ""
  deriving DecidableEq, Repr

/-- Turns a text into a block. -/
structure Renderer where
  render : String → Block

namespace Renderer

open Text

/-- The block of a text, with the HTML of a text that is not empty. -/
def block (html : List Char → List Char) (text : String) : Block :=
  if text = "" then {} else ⟨text, String.ofList (html text.toList)⟩

/-- The parts of a text between pairs of line breaks, taken from the left. -/
def cutAtPairs : List Char → List (List Char)
  | '\n' :: '\n' :: r => [] :: cutAtPairs r
  | c :: r =>
    match cutAtPairs r with
    | [] => [[c]]
    | p :: ps => (c :: p) :: ps
  | [] => [[]]

/-- The escaped paragraphs of a text. Parts that hold nothing but white space are left
out, the others lose it at both ends. -/
def plainHtml (s : List Char) : List Char :=
  unlines (((cutAtPairs s).filter fun p => !p.all isBlank).map fun p =>
    Html.paragraph (Html.escape (strip p)))

/-- Escaped paragraphs, one for each group of lines. -/
def plain : Renderer := ⟨block plainHtml⟩

/-- Consecutive lines that are not blank, in groups. -/
def groups : List (List Char) → List (List (List Char))
  | [] => [[]]
  | l :: ls =>
    if l.all (· == ' ') then [] :: groups ls
    else match groups ls with
      | [] => [[l]]
      | g :: gs => (l :: g) :: gs

/-- The paragraphs of a text in which no other construct of Markdown begins. -/
def paragraphsHtml (s : List Char) : List Char :=
  unlines (((groups (lines s)).filter fun g => !g.isEmpty).map fun g =>
    Html.paragraph ((unlines g).dropWhile (· == ' ')))

/-- The paragraph rule of Markdown: lines between blank lines are a paragraph. Of
Markdown it covers texts of letters, digits, periods, spaces and line breaks in
which no other construct begins. -/
def markdown : Renderer := ⟨block paragraphsHtml⟩

end Renderer

end DocComment
