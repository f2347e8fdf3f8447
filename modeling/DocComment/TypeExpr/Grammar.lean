import DocComment.Text.Basic
import DocComment.TypeExpr.Name
import DocComment.TypeExpr.Basic

/-! The grammar of type expressions as a relation between texts and the types that
they denote. It says nothing about the order in which alternatives are tried. The
number in front is the nesting of a derivation: how many parentheses and angle
brackets are open at once where most of them are. -/

namespace DocComment.TypeExpr.Grammar

open Text

def IsLabel (l : List Char) : Prop :=
  ∃ c r, l = c :: r ∧ isLabelStart c = true ∧ ∀ d ∈ r, isLabelPart d = true

/-- Labels with a backslash between each two. -/
inductive IsPath : List Char → Prop where
  | label {l : List Char} (h : IsLabel l) : IsPath l
  | more {l s : List Char} (h : IsLabel l) (hs : IsPath s) : IsPath (l ++ '\\' :: s)

/-- A class name: a path, possibly behind a backslash, that no keyword begins. -/
def IsClassName (s : List Char) : Prop :=
  (IsPath s ∨ ∃ p, s = '\\' :: p ∧ IsPath p) ∧ ∀ k ∈ keywords, ¬ k.toList <+: s

/-- What may stand before an angle bracket, and the collection that it names. -/
inductive IsCollection : List Char → Option String → Prop where
  | array : IsCollection "array".toList none
  | className {n : List Char} (h : IsClassName n) : IsCollection n (some (String.ofList n))

mutual

inductive Single : Nat → List Char → TypeExpr → Prop where
  | keyword {k : String} (h : k ∈ keywords) : Single 0 k.toList (.keyword k)
  | className {n : List Char} (h : IsClassName n) :
    Single 0 n (.className (String.ofList n))
  | keywordArray {k : String} (h : k ∈ keywords) (levels : { n : Nat // 0 < n }) :
    Single 0 (k.toList ++ pairs levels) (.array (.keyword k) levels)
  | classArray {n : List Char} (h : IsClassName n) (levels : { n : Nat // 0 < n }) :
    Single 0 (n ++ pairs levels) (.array (.className (String.ofList n)) levels)
  | group {n : Nat} {s : List Char} {t : TypeExpr} {ts : List TypeExpr} (h : Members n s t ts)
      (levels : { n : Nat // 0 < n }) :
    Single (n + 1) ('(' :: (s ++ ')' :: pairs levels)) (.array (join t ts) levels)
  | generic {n : Nat} {s : List Char} {c : Option String} {t : TypeExpr}
      (h : Generic n s c t) : Single n s t
  | genericArray {n : Nat} {s : List Char} {c : String} {t : TypeExpr}
      (h : Generic n s (some c) t) (levels : { n : Nat // 0 < n }) :
    Single n (s ++ pairs levels) (.array t levels)

/-- A generic, told by its collection. -/
inductive Generic : Nat → List Char → Option String → TypeExpr → Prop where
  | value {n : Nat} {name s : List Char} {c : Option String} {t : TypeExpr}
      {ts : List TypeExpr} (hc : IsCollection name c) (h : Members n s t ts) :
    Generic (n + 1) (name ++ '<' :: (s ++ ['>'])) c (.generic c (join t ts))
  | keyed {n m : Nat} {name k gap s : List Char} {c : Option String} {u t : TypeExpr}
      {us ts : List TypeExpr} (hc : IsCollection name c) (hk : Members n k u us)
      (hgap : ∀ d ∈ gap, isGap d = true) (h : Members m s t ts) :
    Generic (max n m + 1) (name ++ '<' :: (k ++ ',' :: (gap ++ (s ++ ['>'])))) c
      (.keyed c (join u us) (join t ts))

/-- Types with a bar between each two: the first and the others. -/
inductive Members : Nat → List Char → TypeExpr → List TypeExpr → Prop where
  | one {n : Nat} {s : List Char} {t : TypeExpr} (h : Single n s t) : Members n s t []
  | more {n m : Nat} {s r : List Char} {t u : TypeExpr} {ts : List TypeExpr}
      (h : Single n s t) (hr : Members m r u ts) :
    Members (max n m) (s ++ '|' :: r) t (u :: ts)

end

/-- A whole expression and the type that it denotes. -/
def Expression (n : Nat) (s : List Char) (t : TypeExpr) : Prop :=
  ∃ u us, Members n s u us ∧ t = join u us

/-- The most parentheses and angle brackets that are open at once in a text, where some
are open already. -/
def mostOpen : Nat → List Char → Nat
  | opened, [] => opened
  | opened, c :: r =>
    if c = '(' ∨ c = '<' then mostOpen (opened + 1) r
    else if c = ')' ∨ c = '>' then max opened (mostOpen (opened - 1) r)
    else mostOpen opened r

end DocComment.TypeExpr.Grammar
