import DocComment.Text.Basic
import DocComment.Xml.View

/-! Exported documents read back. Every reader gives what it has read with what follows it. A
leaf ends with its own closing, so what its text looks like does not matter, and the layout is
skipped only where no text can stand. -/

namespace DocComment.Xml

open Text

/-- A text with the characters that its entities stand for. -/
def unescape : List Char → List Char
  | '&' :: 'a' :: 'm' :: 'p' :: ';' :: r => '&' :: unescape r
  | '&' :: 'l' :: 't' :: ';' :: r => '<' :: unescape r
  | '&' :: 'g' :: 't' :: ';' :: r => '>' :: unescape r
  | '&' :: 'q' :: 'u' :: 'o' :: 't' :: ';' :: r => '"' :: unescape r
  | '&' :: '#' :: '1' :: '3' :: ';' :: r => '\r' :: unescape r
  | '&' :: '#' :: '1' :: '0' :: ';' :: r => '\n' :: unescape r
  | '&' :: '#' :: '9' :: ';' :: r => '\t' :: unescape r
  | c :: r => c :: unescape r
  | [] => []

/-- An attribute, behind its space. -/
def attribute? (s : List Char) : Option ((String × String) × List Char) := do
  let name := s.takeWhile (· != '=')
  let r ← after? ['=', '"'] (s.dropWhile (· != '='))
  let value := unescape (r.takeWhile (· != '"'))
  let r ← after? ['"'] (r.dropWhile (· != '"'))
  some ((String.ofList name, String.ofList value), r)

theorem length_lt_of_attribute? {s r : List Char} {a : String × String}
    (h : attribute? s = some (a, r)) : r.length < s.length := by
  simp only [attribute?, Option.bind_eq_bind, Option.bind_eq_some_iff] at h
  obtain ⟨p, hp, q, hq, he⟩ := h
  obtain ⟨-, rfl⟩ : _ ∧ q = r := by simpa using he
  have h₁ := length_lt_of_after? hp (by simp)
  have h₂ := length_lt_of_after? hq (by simp)
  have h₃ := (List.dropWhile_suffix (· != '=') (l := s)).length_le
  have h₄ := (List.dropWhile_suffix (· != '"') (l := p)).length_le
  omega

/-- Attributes, each behind a space. -/
def attributes? : List Char → Option (List (String × String) × List Char)
  | ' ' :: s =>
    match h : attribute? s with
    | some (a, r) =>
      have := length_lt_of_attribute? h
      (attributes? r).map fun (as, q) => (a :: as, q)
    | none => none
  | s => some ([], s)
termination_by s => s.length
decreasing_by
  simp only [List.length_cons]
  omega

theorem length_le_of_attributes? {s r : List Char} {as : List (String × String)}
    (h : attributes? s = some (as, r)) : r.length ≤ s.length := by
  fun_induction attributes? s generalizing as with
  | case1 s a q ha _ ih =>
    obtain ⟨⟨bs, q'⟩, hb, he⟩ := Option.map_eq_some_iff.1 h
    simp only [Prod.mk.injEq] at he
    obtain ⟨-, rfl⟩ := he
    have := length_lt_of_attribute? ha
    have := ih hb
    simp only [List.length_cons]
    omega
  | case2 => exact absurd h (by simp)
  | case3 s _ =>
    obtain ⟨-, rfl⟩ : [] = as ∧ s = r := by simpa using h
    exact Nat.le_refl _

def isElementPart (c : Char) : Bool := c != ' ' && c != '/' && c != '>'

def leaf? (s : List Char) : Option (Leaf × List Char) := do
  let r ← after? ['<'] s
  let name := String.ofList (r.takeWhile isElementPart)
  let (as, r) ← attributes? (r.dropWhile isElementPart)
  match r with
  | '/' :: '>' :: r => some (⟨name, as, none⟩, r)
  | '>' :: r =>
    let text := unescape (r.takeWhile (· != '<'))
    let r ← after? (closing name) (r.dropWhile (· != '<'))
    some (⟨name, as, some (String.ofList text)⟩, r)
  | _ => none

theorem length_lt_of_leaf? {s r : List Char} {l : Leaf} (h : leaf? s = some (l, r)) :
    r.length < s.length := by
  simp only [leaf?, Option.bind_eq_bind, Option.bind_eq_some_iff] at h
  obtain ⟨p, hp, ⟨as, q⟩, hq, h⟩ := h
  have h₁ := length_lt_of_after? hp (by simp)
  have h₂ := (List.dropWhile_suffix isElementPart (l := p)).length_le
  have h₃ := length_le_of_attributes? hq
  dsimp only at h
  split at h
  next =>
    obtain ⟨-, rfl⟩ := Prod.mk.inj (Option.some.inj h)
    simp only [List.length_cons] at h₃
    omega
  next t =>
    obtain ⟨u, hu, he⟩ := Option.bind_eq_some_iff.1 h
    obtain ⟨-, rfl⟩ := Prod.mk.inj (Option.some.inj he)
    have h₄ := length_lt_of_after? hu (by simp [closing])
    have h₅ := (List.dropWhile_suffix (· != '<') (l := t)).length_le
    simp only [List.length_cons] at h₃
    omega
  next => exact absurd h (by simp)

/-- A text without the line breaks and spaces of the layout that it begins with. -/
def skipLayout (s : List Char) : List Char := s.dropWhile fun c => c == '\n' || c == ' '

/-- All leaves that stand one after the other. -/
def leaves (s : List Char) : List Leaf × List Char :=
  match h : leaf? (skipLayout s) with
  | some (l, r) =>
    have := length_lt_of_leaf? h
    have := (List.dropWhile_suffix (fun c => c == '\n' || c == ' ') (l := s)).length_le
    (l :: (leaves r).1, (leaves r).2)
  | none => ([], skipLayout s)
termination_by s.length
decreasing_by all_goals simp only [skipLayout] at *; omega

namespace Leaf

def value? (l : Leaf) (name : String) : Option String :=
  (l.attributes.find? fun a => a.1 = name).map Prod.snd

/-- The text; a leaf without text has the empty one. -/
def content (l : Leaf) : String := l.text.getD ""

def unknown? (l : Leaf) : Option TagView := do
  let name ← l.value? "name"
  let specialization := l.value? "specialization"
  match ← l.value? "kind" with
  | "none" => some (.unknownEmpty name specialization)
  | "description" => some (.unknownDescription name specialization l.content)
  | "inline-phpdoc" => some (.unknownInline name specialization l.content)
  | _ => none

def view? (l : Leaf) : Option TagView :=
  match l.name with
  | "api" => some .api
  | "author" => some (.author (l.value? "name") (l.value? "email"))
  | "copyright" => some (.copyright l.content)
  | "deprecated" =>
    some (.deprecated (l.value? "starting-version") (l.value? "ending-version") l.text)
  | "inherit-doc" => some .inheritDoc
  | "internal" => some .internal
  | "todo" => some (.todo l.content)
  | "version" => some (.version (l.value? "version") l.text)
  | "unknown" => l.unknown?
  | _ => none

end Leaf

def content? (name : String) (s : List Char) : Option (String × List Char) := do
  let (l, r) ← leaf? s
  if l.name = name then some (l.content, r) else none

/-- The leaves inside the element of the tags, which is printed as one tag if there are none. -/
def tags? (s : List Char) : Option (List Leaf × List Char) :=
  match after? (opening "tags" [] ['/', '>']) s with
  | some r => some ([], r)
  | none => do
    let r ← after? (opening "tags" [] ['>']) s
    let (ls, r) := leaves r
    let r ← after? (closing "tags") r
    some (ls, r)

def decode? (text : String) : Option View := do
  let r ← after? (opening "docblock" [] ['>']) text.toList
  let (summary, r) ← content? "summary" (skipLayout r)
  let (description, r) ← content? "description" (skipLayout r)
  let (ls, r) ← tags? (skipLayout r)
  let _ ← after? (closing "docblock") (skipLayout r)
  let tags ← ls.mapM Leaf.view?
  some ⟨summary, description, tags⟩

end DocComment.Xml
