import DocComment.Text.Quoted

/-! Values of no fixed type: what a settings file holds, and what a caller may hand
to an operation that checks its arguments. `display` is the form that messages show,
`plain` differs from it on a text, which stands without quotes. -/

namespace DocComment

/-! ### Decimal fractions

A number written with a point or an exponent keeps its digits; it is shown with the fewest digits,
positional from `1e-4` up to `1e16` and with an exponent of at least two digits beyond. -/

/-- The number `± coefficient · 10 ^ exponent`. -/
structure Decimal where
  negative : Bool
  coefficient : Nat
  exponent : Int
  deriving DecidableEq, Repr

namespace Decimal

/-- Digits without zeros at the end, and how many of those there were. -/
def dropZeros (digits : List Char) : List Char × Nat :=
  let zeros := (digits.reverse.takeWhile (· = '0')).length
  (digits.take (digits.length - zeros), zeros)

/-- A power of ten as it follows the digits. -/
def exponentText (e : Int) : List Char :=
  let digits := Nat.toDigits 10 e.natAbs
  'e' :: (if e < 0 then '-' else '+') :: (List.replicate (2 - digits.length) '0' ++ digits)

/-- The digits with a point after the first `point` of them. -/
def positional (digits : List Char) (point : Int) : List Char :=
  let n := digits.length
  if point ≤ 0 then '0' :: '.' :: (List.replicate (-point).toNat '0' ++ digits)
  else if (n : Int) ≤ point then
    digits ++ (List.replicate (point.toNat - n) '0' ++ ['.', '0'])
  else digits.take point.toNat ++ '.' :: digits.drop point.toNat

/-- The shown form without its sign. -/
def unsigned (d : Decimal) : List Char :=
  if d.coefficient = 0 then ['0', '.', '0']
  else
    let (digits, zeros) := dropZeros (Nat.toDigits 10 d.coefficient)
    let point : Int := digits.length + zeros + d.exponent
    if -4 < point && point ≤ 16 then positional digits point
    else match digits with
      | [] => []
      | [c] => c :: exponentText (point - 1)
      | c :: cs => c :: '.' :: (cs ++ exponentText (point - 1))

def text (d : Decimal) : List Char := if d.negative then '-' :: d.unsigned else d.unsigned

/-- The number in units of a power of ten that is not above its own. -/
def units (d : Decimal) (least : Int) : Int :=
  let n : Int := d.coefficient * Nat.pow 10 (d.exponent - least).toNat
  if d.negative then -n else n

def le (a b : Decimal) : Bool :=
  let least := min a.exponent b.exponent
  a.units least ≤ b.units least

end Decimal

/-! ### Keys -/

/-- A key of a mapping. One of another kind, such as a date, is told by its kind, by how messages
show it and by a text that has its place among the keys of that kind. What is no number (`.nan`) has
no place among the numbers and is left out. -/
inductive Key where
  | null
  | bool (b : Bool)
  | integer (n : Int)
  | decimal (d : Decimal)
  | infinite (negative : Bool)
  | text (s : String)
  | other (kind shown place : String)
  deriving DecidableEq, Repr

namespace Key

def display : Key → List Char
  | .null => "None".toList
  | .bool true => "True".toList
  | .bool false => "False".toList
  | .integer n => (toString n).toList
  | .decimal d => d.text
  | .infinite true => "-inf".toList
  | .infinite false => "inf".toList
  | .text s => Text.quoted s.toList
  | .other _ shown _ => shown.toList

/-- Keys of one family have an order. -/
inductive Family where
  | number
  | text
  | other (kind : String)
  deriving DecidableEq

/-- The family of a key. Nothing can be compared with null. -/
def family? : Key → Option Family
  | .null => none
  | .bool _ | .integer _ | .decimal _ | .infinite _ => some .number
  | .text _ => some .text
  | .other kind _ _ => some (.other kind)

/-- Where a number stands to those that are finite: below, among or above them. -/
def side : Key → Int
  | .infinite true => -1
  | .infinite false => 1
  | _ => 0

/-- What a finite number is ordered by; truth values are numbers. -/
def number : Key → Decimal
  | .bool b => ⟨false, b.toNat, 0⟩
  | .integer n => ⟨n < 0, n.natAbs, 0⟩
  | .decimal d => d
  | _ => ⟨false, 0, 0⟩

/-- What a key is ordered by that is no number. -/
def letters : Key → String
  | .text s => s
  | .other _ _ place => place
  | _ => ""

/-- The order of keys. It is the order of each family, whatever it is between families. -/
def le (a b : Key) : Bool :=
  a.side < b.side || a.side = b.side && a.number.le b.number &&
    (!b.number.le a.number || a.letters ≤ b.letters)

def Comparable (a b : Key) : Prop := a.family?.isSome = true ∧ a.family? = b.family?

/-- Keys that a mapping cannot tell apart, such as one and the truth value true. -/
def Same (a b : Key) : Prop := a.family? = b.family? ∧ a.le b = true ∧ b.le a = true

instance (a b : Key) : Decidable (a.Comparable b) := inferInstanceAs (Decidable (_ ∧ _))

instance (a b : Key) : Decidable (a.Same b) := inferInstanceAs (Decidable (_ ∧ _ ∧ _))

/-- Keys in their order, if each two of them can be compared. -/
def ascending? (keys : List Key) : Option (List Key) :=
  if keys.Pairwise Comparable then some (keys.mergeSort le) else none

end Key

/-! ### Values -/

/-- A value of a settings file. A mapping keeps the order of its entries; a value of another type,
such as a date, is told by the name of the type and by how messages show it. -/
inductive Value where
  | null
  | bool (b : Bool)
  | integer (n : Int)
  | decimal (d : Decimal)
  | text (s : String)
  | list (items : List Value)
  | mapping (entries : List (Key × Value))
  | other (typeName shown : String)
  deriving Repr, Inhabited

namespace Value

def typeName : Value → String
  | .null => "NoneType"
  | .bool _ => "bool"
  | .integer _ => "int"
  | .decimal _ => "float"
  | .text _ => "str"
  | .list _ => "list"
  | .mapping _ => "dict"
  | .other typeName _ => typeName

/-- Items with a comma and a space between each two. -/
def separated : List (List Char) → List Char
  | [] => []
  | [t] => t
  | t :: ts => t ++ ',' :: ' ' :: separated ts

/-- Items that are shown, in brackets. -/
def bracketed (items : List (List Char)) : List Char := '[' :: (separated items ++ [']'])

mutual

/-- A value as messages show it. -/
def display : Value → List Char
  | .null => Key.null.display
  | .bool b => (Key.bool b).display
  | .integer n => (Key.integer n).display
  | .decimal d => (Key.decimal d).display
  | .text s => (Key.text s).display
  | .list items => bracketed (displayItems items)
  | .mapping entries => '\x7b' :: (separated (displayEntries entries) ++ ['\x7d'])
  | .other _ shown => shown.toList

def displayItems : List Value → List (List Char)
  | [] => []
  | v :: vs => display v :: displayItems vs

def displayEntries : List (Key × Value) → List (List Char)
  | [] => []
  | (k, v) :: es => (k.display ++ ':' :: ' ' :: display v) :: displayEntries es

end

/-- A value as it stands inside a message that has quotes of its own. -/
def plain : Value → List Char
  | .text s => s.toList
  | v => display v

/-- A mapping has one entry for each key. -/
def KeysDiffer : Value → Prop
  | .mapping entries => entries.Pairwise fun a b => ¬ a.1.Same b.1
  | _ => True

instance : DecidablePred KeysDiffer
  | .mapping entries => inferInstanceAs (Decidable (entries.Pairwise fun a b => ¬ a.1.Same b.1))
  | .null | .bool _ | .integer _ | .decimal _ | .text _ | .list _ | .other _ _ => isTrue trivial

end Value

end DocComment
