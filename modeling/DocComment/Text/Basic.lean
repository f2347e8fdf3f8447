/-! White space, and a fixed word at the beginning of a text. Descriptions and paragraphs are trimmed
of every white space character of Unicode, lines of a comment only of spaces and tabs. -/

namespace DocComment.Text

/-! ### White space -/

/-- The white space characters of Unicode, among them the four information
separators and the C1 line break. -/
def isBlank (c : Char) : Bool :=
  let n := c.toNat
  (0x9 ≤ n && n ≤ 0xd) || (0x1c ≤ n && n ≤ 0x20) || n == 0x85 || n == 0xa0 || n == 0x1680 ||
    (0x2000 ≤ n && n ≤ 0x200a) || n == 0x2028 || n == 0x2029 || n == 0x202f || n == 0x205f ||
    n == 0x3000

/-- A space or a tab. -/
def isGap (c : Char) : Bool := c == ' ' || c == '\t'

theorem isBlank_of_isGap {c : Char} (h : isGap c = true) : isBlank c = true := by
  simp only [isGap, Bool.or_eq_true, beq_iff_eq] at h
  rcases h with rfl | rfl <;> rfl

/-- A text without the characters of a class at either end. -/
def trim (p : Char → Bool) (s : List Char) : List Char :=
  ((s.dropWhile p).reverse.dropWhile p).reverse

/-- A text without white space at either end. -/
def strip (s : List Char) : List Char := trim isBlank s

/-! ### Fixed words -/

/-- What follows a word that the text begins with. -/
def after? : List Char → List Char → Option (List Char)
  | [], s => some s
  | c :: w, d :: s => if c = d then after? w s else none
  | _ :: _, [] => none

theorem after?_eq_some_iff {w s r : List Char} : after? w s = some r ↔ s = w ++ r := by
  induction w generalizing s with
  | nil => simp [after?]
  | cons c w ih =>
    cases s with
    | nil => simp [after?]
    | cons d s =>
      by_cases h : c = d
      · simp [after?, h, ih]
      · simp [after?, h, Ne.symm h]

theorem after?_append (w r : List Char) : after? w (w ++ r) = some r := after?_eq_some_iff.2 rfl

theorem length_lt_of_after? {w s r : List Char} (h : after? w s = some r) (hw : w ≠ []) :
    r.length < s.length := by
  have hs := congrArg List.length (after?_eq_some_iff.1 h)
  have := List.length_pos_iff.2 hw
  simp only [List.length_append] at hs
  omega

end DocComment.Text
