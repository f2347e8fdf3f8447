import DocComment.TypeExpr.Grammar

/-! What the written form of a type can be read as, and how it differs from a text that was read.

Canonical types are those whose written form can be read back as they are. Words have to be words of
type expressions, a union is no member of a union, and the base of an array is neither an array nor
a generic of `array`. An array of arrays is written with all its levels one behind the other, which
is how one array of as many levels is written (`merged`). Levels behind a generic of `array` are
written as well, although reading takes the word `array` alone for the base (`readable`).

Behind each comma of a written form there is one space, whatever spaces and tabs stood there
(`spaced`). The parentheses of a group are written only around a union, so the text of a group has
to hold a bar of its own (`Barred`). -/

namespace DocComment.TypeExpr

open Text

/-! ### Canonical types -/

/-- A type that may be a member of a union. -/
def IsMember (t : TypeExpr) : Prop := t.isUnion = false

/-- A type that may be the base of an array. -/
def IsBase : TypeExpr → Prop
  | .array .. | .generic none _ | .keyed none .. => False
  | _ => True

/-- A collection with a proper name. -/
def IsNamed : Option String → Prop
  | none => True
  | some c => Grammar.IsClassName c.toList

/-- A type whose written form denotes it. -/
inductive Canonical : TypeExpr → Prop where
  | keyword {k : String} (h : k ∈ keywords) : Canonical (.keyword k)
  | className {n : String} (h : Grammar.IsClassName n.toList) : Canonical (.className n)
  | array {t : TypeExpr} {levels : { n : Nat // 0 < n }} (h : Canonical t) (hb : IsBase t) :
    Canonical (.array t levels)
  | generic {c : Option String} {t : TypeExpr} (hc : IsNamed c) (h : Canonical t) :
    Canonical (.generic c t)
  | keyed {c : Option String} {k t : TypeExpr} (hc : IsNamed c) (hk : Canonical k)
      (h : Canonical t) : Canonical (.keyed c k t)
  | union {t u : TypeExpr} {us : List TypeExpr} (ht : Canonical t) (hu : Canonical u)
      (hus : ∀ v ∈ us, Canonical v) (hm : ∀ v ∈ t :: u :: us, IsMember v) :
    Canonical (.union t u us)

mutual

/-- How many parentheses and angle brackets are open at once in the written form where
most of them are. -/
def nesting : TypeExpr → Nat
  | .keyword _ | .className _ => 0
  | .array t _ => if t.isUnion then nesting t + 1 else nesting t
  | .generic _ t => nesting t + 1
  | .keyed _ k t => max (nesting k) (nesting t) + 1
  | .union t u us => max (nesting t) (max (nesting u) (nestingAll us))

def nestingAll : List TypeExpr → Nat
  | [] => 0
  | t :: ts => max (nesting t) (nestingAll ts)

end

/-! ### Levels of arrays -/

/-- An array with a base; a base that is an array itself gets the levels in addition. -/
def addLevels : TypeExpr → { n : Nat // 0 < n } → TypeExpr
  | .array base inner, levels => .array base ⟨inner + levels, by omega⟩
  | base, levels => .array base levels

mutual

/-- A type with each array of arrays as one array. -/
def merged : TypeExpr → TypeExpr
  | .keyword word => .keyword word
  | .className name => .className name
  | .array base levels => addLevels (merged base) levels
  | .generic collection value => .generic collection (merged value)
  | .keyed collection key value => .keyed collection (merged key) (merged value)
  | .union first second others => .union (merged first) (merged second) (mergedAll others)

def mergedAll : List TypeExpr → List TypeExpr
  | [] => []
  | t :: ts => merged t :: mergedAll ts

end

def isBareGeneric : TypeExpr → Bool
  | .generic none _ | .keyed none .. => true
  | _ => false

mutual

/-- Whether no generic of `array` is the base of an array. -/
def readable : TypeExpr → Bool
  | .keyword _ | .className _ => true
  | .array base _ => !isBareGeneric base && readable base
  | .generic _ value => readable value
  | .keyed _ key value => readable key && readable value
  | .union first second others => readable first && (readable second && readableAll others)

def readableAll : List TypeExpr → Bool
  | [] => true
  | t :: ts => readable t && readableAll ts

end

/-! ### Spaces and groups of a text -/

/-- A text with one space in place of the spaces and tabs behind each comma. -/
def spaced : List Char → List Char
  | [] => []
  | c :: r => if c = ',' then ',' :: ' ' :: (spaced r).dropWhile isGap else c :: spaced r

/-- Whether a bar stands in a text that goes on behind an opening parenthesis, before that
parenthesis is closed and inside no other parentheses or angle brackets. The number tells
how many others are open. -/
def hasBar : Nat → List Char → Bool
  | _, [] => false
  | opened, c :: r =>
    if c = '(' ∨ c = '<' then hasBar (opened + 1) r
    else if c = ')' ∨ c = '>' then
      match opened with
      | 0 => false
      | opened + 1 => hasBar opened r
    else (c = '|' ∧ opened = 0) || hasBar opened r

/-- Every group of a text holds a bar of its own. -/
def Barred (s : List Char) : Prop := ∀ r, '(' :: r <:+ s → hasBar 0 r = true

theorem barred_cons {c : Char} {s : List Char} :
    Barred (c :: s) ↔ (c = '(' → hasBar 0 s = true) ∧ Barred s := by
  constructor
  · intro h
    refine ⟨?_, fun r hr => h r (hr.trans (List.suffix_cons c s))⟩
    rintro rfl
    exact h s (List.suffix_refl _)
  · rintro ⟨hc, hs⟩ r hr
    rcases List.suffix_cons_iff.1 hr with he | hr
    · obtain ⟨rfl, rfl⟩ := List.cons.inj he
      exact hc rfl
    · exact hs r hr

instance decidableBarred : (s : List Char) → Decidable (Barred s)
  | [] => .isTrue fun r hr => absurd (List.suffix_nil.1 hr) (List.cons_ne_nil _ r)
  | _ :: s =>
    have := decidableBarred s
    decidable_of_iff _ barred_cons.symm

end DocComment.TypeExpr
