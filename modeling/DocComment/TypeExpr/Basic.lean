/-! Type expressions such as `int[]`, `(int|\Foo)[][]` or `ArrayObject<string, int>`. An array has
at least one level and a union at least two members by construction; `arrayOf`, `unionOf` and
`joinOf` build them from what a caller hands over and say what is wrong with it. In the written form
members of a union are separated by a bar, a union is put in parentheses only as the base of an
array, and the key of a generic is followed by a comma and one space. -/

namespace DocComment

/-- A type expression. A generic without a collection is one of `array`. -/
inductive TypeExpr where
  | keyword (word : String)
  | className (name : String)
  | array (base : TypeExpr) (levels : { n : Nat // 0 < n })
  | generic (collection : Option String) (value : TypeExpr)
  | keyed (collection : Option String) (key value : TypeExpr)
  | union (first second : TypeExpr) (others : List TypeExpr)
  deriving Inhabited

namespace TypeExpr

/-- A type, or the union of several. -/
def join (first : TypeExpr) : List TypeExpr → TypeExpr
  | [] => first
  | second :: others => .union first second others

inductive Invalid where
  | levels (got : Int)
  | fewMembers (got : Nat)
  | noMembers
  deriving DecidableEq, Repr

def Invalid.message : Invalid → String
  | .levels got => "Array levels must be at least 1, got " ++ toString got
  | .fewMembers got => "A union needs at least two member types, got " ++ toString got
  | .noMembers => "Cannot build a type from zero members"

/-- An array with a number of levels that may be too small. -/
def arrayOf (base : TypeExpr) (levels : Int) : Except Invalid TypeExpr :=
  if h : 0 < levels then .ok (.array base ⟨levels.toNat, by omega⟩) else .error (.levels levels)

/-- A union of at least two members. -/
def unionOf : List TypeExpr → Except Invalid TypeExpr
  | first :: second :: others => .ok (.union first second others)
  | members => .error (.fewMembers members.length)

/-- A union of at least one member; a single member stands for itself. -/
def joinOf : List TypeExpr → Except Invalid TypeExpr
  | [] => .error .noMembers
  | first :: others => .ok (join first others)

/-! ### The written form -/

/-- As many pairs of square brackets. -/
def pairs : Nat → List Char
  | 0 => []
  | n + 1 => '[' :: ']' :: pairs n

def collectionName : Option String → List Char
  | none => "array".toList
  | some name => name.toList

def isUnion : TypeExpr → Bool
  | .union .. => true
  | _ => false

mutual

def written : TypeExpr → List Char
  | .keyword word => word.toList
  | .className name => name.toList
  | .array base levels =>
    (if base.isUnion then '(' :: (written base ++ [')']) else written base) ++ pairs levels
  | .generic collection value => collectionName collection ++ '<' :: (written value ++ ['>'])
  | .keyed collection key value =>
    collectionName collection ++ '<' :: (written key ++ ',' :: ' ' :: (written value ++ ['>']))
  | .union first second others => written first ++ '|' :: (written second ++ writtenRest others)

/-- Further members of a union, each behind its bar. -/
def writtenRest : List TypeExpr → List Char
  | [] => []
  | t :: ts => '|' :: (written t ++ writtenRest ts)

end

def text (t : TypeExpr) : String := String.ofList t.written

instance : ToString TypeExpr := ⟨text⟩

end TypeExpr

end DocComment
