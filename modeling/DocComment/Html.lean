import DocComment.Text.Basic

/-! Text as it stands in HTML: the five characters with a meaning of their own are written as
entities. Paragraphs are read back as well. A paragraph ends at the first tag behind its opening,
whatever its content is, and what its entities stand for is put in their place. -/

namespace DocComment.Html

open Text

def escapeChar (c : Char) : List Char :=
  if c = '&' then "&amp;".toList
  else if c = '<' then "&lt;".toList
  else if c = '>' then "&gt;".toList
  else if c = '"' then "&quot;".toList
  else if c = '\'' then "&#x27;".toList
  else [c]

/-- A text with its special characters as entities. -/
def escape (s : List Char) : List Char := s.flatMap escapeChar

def paragraph (content : List Char) : List Char :=
  "<p>".toList ++ content ++ "</p>".toList

/-! ### Paragraphs read back -/

/-- The entities of the characters with a meaning of their own. -/
def entities : List (List Char) :=
  ["&amp;".toList, "&lt;".toList, "&gt;".toList, "&quot;".toList, "&#x27;".toList]

/-- A text with the characters that its entities stand for. -/
def unescape : List Char → List Char
  | '&' :: 'a' :: 'm' :: 'p' :: ';' :: r => '&' :: unescape r
  | '&' :: 'l' :: 't' :: ';' :: r => '<' :: unescape r
  | '&' :: 'g' :: 't' :: ';' :: r => '>' :: unescape r
  | '&' :: 'q' :: 'u' :: 'o' :: 't' :: ';' :: r => '"' :: unescape r
  | '&' :: '#' :: 'x' :: '2' :: '7' :: ';' :: r => '\'' :: unescape r
  | c :: r => c :: unescape r
  | [] => []

/-- The text of the paragraph that begins here, and what follows it. -/
def paragraph? (s : List Char) : Option (List Char × List Char) := do
  let r ← after? "<p>".toList s
  let q ← after? "</p>".toList (r.dropWhile (· != '<'))
  some (unescape (r.takeWhile (· != '<')), q)

theorem length_lt_of_paragraph? {s t r : List Char} (h : paragraph? s = some (t, r)) :
    r.length < s.length := by
  simp only [paragraph?, Option.bind_eq_bind, Option.bind_eq_some_iff] at h
  obtain ⟨p, hp, q, hq, he⟩ := h
  obtain ⟨-, rfl⟩ := Prod.mk.inj (Option.some.inj he)
  have h₁ := length_lt_of_after? hp (by simp)
  have h₂ := length_lt_of_after? hq (by simp)
  have h₃ := (List.dropWhile_suffix (· != '<') (l := p)).length_le
  omega

/-- The texts of paragraphs with a break between each two. -/
def paragraphs? : List Char → Option (List (List Char))
  | [] => some []
  | c :: s =>
    match h : paragraph? (c :: s) with
    | some (t, []) => some [t]
    | some (t, '\n' :: r) =>
      have := length_lt_of_paragraph? h
      (paragraphs? r).map (t :: ·)
    | _ => none
termination_by s => s.length
decreasing_by
  simp only [List.length_cons] at *
  omega

end DocComment.Html
