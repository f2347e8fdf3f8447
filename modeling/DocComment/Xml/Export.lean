import DocComment.Document
import DocComment.Xml.Element

/-! Documents as XML. A document is an element with its summary, its description and
its tags; a tag is a leaf with its short fields as attributes and its long one as
text. Blocks are exported as their HTML. -/

namespace DocComment.Xml

inductive ExportError where
  | incompatibleText
  | unsupportedTag (typeName : String)
  deriving DecidableEq, Repr

def ExportError.message : ExportError → String
  | .incompatibleText =>
    "All strings must be XML compatible: Unicode or ASCII, no NULL bytes or control characters"
  | .unsupportedTag typeName => "Unsupported tag type: " ++ typeName

def compatible (s : String) : Except ExportError String :=
  if s.toList.all isCompatible then .ok s else .error .incompatibleText

/-- The attributes that have a value. -/
def attributes : List (String × Option String) → Except ExportError (List (String × String))
  | [] => .ok []
  | (_, none) :: as => attributes as
  | (name, some v) :: as => do
    let v ← compatible v
    let vs ← attributes as
    pure ((name, v) :: vs)

/-- A leaf, whose strings have to be compatible. -/
def leaf (name : String) (as : List (String × Option String)) (text : Option String) :
    Except ExportError Element := do
  let as ← attributes as
  match text with
  | none => pure (.leaf name as none)
  | some t => pure (.leaf name as (some (← compatible t)))

def unlessEmpty (s : String) : Option String := if s = "" then none else some s

def unknown (name : String) (specialization : Option String) (kind text : String) :
    Except ExportError Element :=
  leaf "unknown" [("name", some name), ("specialization", specialization), ("kind", some kind)]
    (unlessEmpty text)

def ofTag : Tag → Except ExportError Element
  | .api => leaf "api" [] none
  | .author name email => leaf "author" [("name", name), ("email", email)] none
  | .copyright b => leaf "copyright" [] (unlessEmpty b.html)
  | .deprecated starting ending description =>
    leaf "deprecated" [("starting-version", starting), ("ending-version", ending)] description
  | .inheritDoc => leaf "inherit-doc" [] none
  | .internal => leaf "internal" [] none
  | .todo b => leaf "todo" [] (b.bind fun b => unlessEmpty b.html)
  | .version version description => leaf "version" [("version", version)] description
  | .unknownEmpty name specialization => unknown name specialization "none" ""
  | .unknownDescription name specialization text =>
    unknown name specialization "description" text
  | .unknownInline name specialization nested =>
    unknown name specialization "inline-phpdoc" nested
  | .foreign typeName => .error (.unsupportedTag typeName)

def ofDocument (d : Document) : Except ExportError Element := do
  let summary ← leaf "summary" [] (unlessEmpty d.summary)
  let description ← leaf "description" [] (unlessEmpty d.description.html)
  let tags ← d.tags.mapM ofTag
  pure (.parent "docblock" [summary, description, .parent "tags" tags])

end Xml

/-- The XML of a document, on one line or laid out. -/
def Document.toXml (d : Document) (pretty : Bool) : Except Xml.ExportError String :=
  (Xml.ofDocument d).map fun e => e.text pretty

end DocComment
