import DocComment.Xml.Export

/-! What an export holds. Of a block only the HTML is exported, and a `todo` without a block
is exported as one with the empty HTML; all other fields are, and a field that may be left out
is told from the empty one. A tag of a foreign kind has no view, since it is not exported. -/

namespace DocComment

namespace Xml

def IsText (s : String) : Prop := ∀ c ∈ s.toList, isCompatible c = true

instance (s : String) : Decidable (IsText s) :=
  decidable_of_iff (s.toList.all isCompatible = true) List.all_eq_true

structure Leaf where
  name : String
  attributes : List (String × String) := []
  text : Option String := none
  deriving DecidableEq, Repr

def Leaf.element (l : Leaf) : Element := .leaf l.name l.attributes l.text

/-- The attributes among some that have a value. -/
def given (as : List (String × Option String)) : List (String × String) :=
  as.filterMap fun a => a.2.map fun v => (a.1, v)

inductive TagView where
  | api
  | author (name email : Option String)
  | copyright (html : String)
  | deprecated (starting ending description : Option String)
  | inheritDoc
  | internal
  | todo (html : String)
  | version (number description : Option String)
  | unknownEmpty (name : String) (specialization : Option String)
  | unknownDescription (name : String) (specialization : Option String) (text : String)
  | unknownInline (name : String) (specialization : Option String) (nested : String)
  deriving DecidableEq, Repr

namespace TagView

def strings : TagView → List String
  | .api | .inheritDoc | .internal => []
  | .author name email => name.toList ++ email.toList
  | .copyright html | .todo html => [html]
  | .deprecated starting ending description =>
    starting.toList ++ ending.toList ++ description.toList
  | .version number description => number.toList ++ description.toList
  | .unknownEmpty name specialization => name :: specialization.toList
  | .unknownDescription name specialization text => name :: (specialization.toList ++ [text])
  | .unknownInline name specialization nested => name :: (specialization.toList ++ [nested])

def elementName : TagView → String
  | .api => "api"
  | .author .. => "author"
  | .copyright _ => "copyright"
  | .deprecated .. => "deprecated"
  | .inheritDoc => "inherit-doc"
  | .internal => "internal"
  | .todo _ => "todo"
  | .version .. => "version"
  | .unknownEmpty .. | .unknownDescription .. | .unknownInline .. => "unknown"

/-- The attributes of an unknown tag. -/
def unknownFields (name : String) (specialization : Option String) (kind : String) :
    List (String × Option String) :=
  [("name", some name), ("specialization", specialization), ("kind", some kind)]

/-- The fields of a tag that are exported as attributes. -/
def fields : TagView → List (String × Option String)
  | .author name email => [("name", name), ("email", email)]
  | .deprecated starting ending _ => [("starting-version", starting), ("ending-version", ending)]
  | .version number _ => [("version", number)]
  | .unknownEmpty name specialization => unknownFields name specialization "none"
  | .unknownDescription name specialization _ => unknownFields name specialization "description"
  | .unknownInline name specialization _ => unknownFields name specialization "inline-phpdoc"
  | _ => []

/-- The field of a tag that is exported as text. -/
def text : TagView → Option String
  | .copyright html | .todo html => unlessEmpty html
  | .deprecated _ _ description | .version _ description => description
  | .unknownDescription _ _ text | .unknownInline _ _ text => unlessEmpty text
  | _ => none

def leaf (v : TagView) : Leaf := ⟨v.elementName, given v.fields, v.text⟩

end TagView

structure View where
  summary : String
  description : String
  tags : List TagView
  deriving DecidableEq, Repr

namespace View

def strings (v : View) : List String :=
  v.summary :: v.description :: v.tags.flatMap TagView.strings

/-- All strings may stand in XML. -/
def IsCompatible (v : View) : Prop := ∀ s ∈ v.strings, IsText s

instance (v : View) : Decidable v.IsCompatible := List.decidableBAll _ v.strings

def element (v : View) : Element :=
  .parent "docblock" [(Leaf.mk "summary" [] (unlessEmpty v.summary)).element,
    (Leaf.mk "description" [] (unlessEmpty v.description)).element,
    .parent "tags" (v.tags.map fun t => t.leaf.element)]

end View

end Xml

/-- What is exported of a tag, unless it is of a foreign kind. -/
def Tag.view? : Tag → Option Xml.TagView
  | .api => some .api
  | .author name email => some (.author name email)
  | .copyright b => some (.copyright b.html)
  | .deprecated starting ending description => some (.deprecated starting ending description)
  | .inheritDoc => some .inheritDoc
  | .internal => some .internal
  | .todo b => some (.todo (b.elim "" Block.html))
  | .version number description => some (.version number description)
  | .unknownEmpty name specialization => some (.unknownEmpty name specialization)
  | .unknownDescription name specialization text =>
    some (.unknownDescription name specialization text)
  | .unknownInline name specialization nested => some (.unknownInline name specialization nested)
  | .foreign _ => none

/-- What is exported of a document, unless one of its tags is of a foreign kind. -/
def Document.view? (d : Document) : Option Xml.View :=
  (d.tags.mapM Tag.view?).map fun tags => ⟨d.summary, d.description.html, tags⟩

end DocComment
