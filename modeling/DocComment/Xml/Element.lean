/-! Elements of XML and their printed form. An element holds either text or other
elements. Laid out, every element inside another one stands on a line of its own, two
spaces further in; text is never moved. -/

namespace DocComment.Xml

/-- An element. A leaf without text is printed as one tag, a leaf with the empty text
as two. -/
inductive Element where
  | leaf (name : String) (attributes : List (String × String)) (text : Option String)
  | parent (name : String) (children : List Element)
  deriving Repr

/-- The code points that no text in XML may hold. -/
def IsExcluded (n : Nat) : Prop :=
  n ≤ 0x8 ∨ n = 0xb ∨ n = 0xc ∨ 0xe ≤ n ∧ n ≤ 0x1f ∨ n = 0xfffe ∨ n = 0xffff

/-- Whether a character may stand in XML: no control character but tab and line
breaks, and neither `U+FFFE` nor `U+FFFF`. -/
def isCompatible (c : Char) : Bool :=
  let n := c.toNat
  !(n ≤ 0x8 || n == 0xb || n == 0xc || (0xe ≤ n && n ≤ 0x1f) || n == 0xfffe || n == 0xffff)

def escapeTextChar (c : Char) : List Char :=
  if c = '&' then "&amp;".toList
  else if c = '<' then "&lt;".toList
  else if c = '>' then "&gt;".toList
  else if c = '\r' then "&#13;".toList
  else [c]

def escapeValueChar (c : Char) : List Char :=
  if c = '"' then "&quot;".toList
  else if c = '\n' then "&#10;".toList
  else if c = '\t' then "&#9;".toList
  else escapeTextChar c

def escapeText (s : List Char) : List Char := s.flatMap escapeTextChar

def escapeValue (s : List Char) : List Char := s.flatMap escapeValueChar

/-- An attribute behind its space. -/
def attributeText (a : String × String) : List Char :=
  ' ' :: (a.1.toList ++ '=' :: '"' :: (escapeValue a.2.toList ++ ['"']))

/-- A tag with its attributes; `tail` is `>` or `/>`. -/
def opening (name : String) (attributes : List (String × String)) (tail : List Char) : List Char :=
  '<' :: (name.toList ++ attributes.flatMap attributeText ++ tail)

def closing (name : String) : List Char := '<' :: '/' :: (name.toList ++ ['>'])

namespace Element

def printLeaf (name : String) (attributes : List (String × String)) :
    Option String → List Char
  | none => opening name attributes ['/', '>']
  | some t => opening name attributes ['>'] ++ escapeText t.toList ++ closing name

/-- The line break and the indentation of a level. -/
def newLine (level : Nat) : List Char := '\n' :: List.replicate (2 * level) ' '

mutual

/-- An element at a level, laid out or on one line. -/
def print (pretty : Bool) (level : Nat) : Element → List Char
  | .leaf name attributes text => printLeaf name attributes text
  | .parent name [] => opening name [] ['/', '>']
  | .parent name (e :: es) =>
    opening name [] ['>'] ++ printAll pretty (level + 1) (e :: es) ++
      (if pretty then newLine level else []) ++ closing name

def printAll (pretty : Bool) (level : Nat) : List Element → List Char
  | [] => []
  | e :: es =>
    (if pretty then newLine level else []) ++ print pretty level e ++ printAll pretty level es

end

/-- The printed form of a whole document, which ends with a line break if it is laid
out. -/
def text (pretty : Bool) (e : Element) : String :=
  String.ofList (print pretty 0 e ++ if pretty then ['\n'] else [])

end Element

end DocComment.Xml
