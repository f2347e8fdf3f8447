import DocComment.Text.Basic

/-! Lines of a text. `lines` cuts at every line break and always gives at least
one line, `unlines` puts the breaks back, and `unlines_lines` says that nothing
is lost on the way. `unifyBreaks` turns the three usual line endings into one. Lines with an empty
line before and behind them, or an end of the text, are a group, and a group with something in it
besides white space is a paragraph. -/

namespace DocComment.Text

/-- The lines of a text, without their breaks. -/
def lines : List Char → List (List Char)
  | [] => [[]]
  | c :: r =>
    if c = '\n' then [] :: lines r
    else match lines r with
      | [] => [[c]]
      | l :: ls => (c :: l) :: ls

/-- Lines joined with a break between each two. -/
def unlines : List (List Char) → List Char
  | [] => []
  | [l] => l
  | l :: ls => l ++ '\n' :: unlines ls

theorem lines_ne_nil (s : List Char) : lines s ≠ [] := by
  cases s with
  | nil => simp [lines]
  | cons c r => grind [lines]

theorem unlines_lines (s : List Char) : unlines (lines s) = s := by
  induction s with
  | nil => rfl
  | cons c r ih =>
    have hne := lines_ne_nil r
    obtain ⟨l, ls, hl⟩ := List.exists_cons_of_ne_nil hne
    rw [hl] at ih
    by_cases hc : c = '\n'
    · simp [lines, hc, hl, unlines, ih]
    · cases ls with
      | nil => simp_all [lines, unlines]
      | cons m ms => simp_all [lines, unlines]

/-- Each `\r\n` and each lone `\r` as `\n`. -/
def unifyBreaks : List Char → List Char
  | '\r' :: '\n' :: r => '\n' :: unifyBreaks r
  | '\r' :: r => '\n' :: unifyBreaks r
  | c :: r => c :: unifyBreaks r
  | [] => []

/-- The first line with its break, and what follows it. -/
def cutLine : List Char → List Char × List Char
  | [] => ([], [])
  | c :: r =>
    if c = '\n' then ([c], r)
    else
      let (l, q) := cutLine r
      (c :: l, q)

theorem cutLine_append (s : List Char) : (cutLine s).1 ++ (cutLine s).2 = s := by
  induction s with
  | nil => rfl
  | cons c r ih => by_cases h : c = '\n' <;> simp [cutLine, h, ih]

theorem length_cutLine_le (s : List Char) : (cutLine s).2.length ≤ s.length := by
  have := congrArg List.length (cutLine_append s)
  simp only [List.length_append] at this
  omega

theorem length_cutLine_lt {s : List Char} (h : s ≠ []) : (cutLine s).2.length < s.length := by
  cases s with
  | nil => exact absurd rfl h
  | cons c r =>
    have := length_cutLine_le r
    by_cases hc : c = '\n'
    · simp [cutLine, hc]
    · simp only [cutLine, hc, if_false, List.length_cons]
      omega

/-! ### Paragraphs -/

/-- Consecutive lines that are not empty, in groups that are as large as they can be. -/
def lineGroups (s : List Char) : List (List (List Char)) :=
  ((lines s).splitOnP List.isEmpty).filter fun g => !g.isEmpty

/-- The texts that hold something besides white space, without the white space at their ends. -/
def shown (ts : List (List Char)) : List (List Char) :=
  (ts.filter fun t => !t.all isBlank).map strip

/-- The paragraphs of a text, each with the breaks between its lines. -/
def paragraphs (s : List Char) : List (List Char) := shown ((lineGroups s).map unlines)

end DocComment.Text
