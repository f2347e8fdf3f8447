import DocComment.Block

/-! What a comment says: a summary, a rendered description and the tags in order; the strings of a
document, and where one may come from. A name that no interpreter claims gives one of the three
unknown tags, by the kind of its body; an interpreter from outside may give a tag of a foreign kind,
which this library only passes on. -/

namespace DocComment

/-- A tag of a comment. Fields that a comment may leave out are optional. -/
inductive Tag where
  | api
  | author (name email : Option String)
  | copyright (description : Block)
  | deprecated (starting ending description : Option String)
  | inheritDoc
  | internal
  | todo (description : Option Block)
  | version (version description : Option String)
  | unknownEmpty (name : String) (specialization : Option String)
  | unknownDescription (name : String) (specialization : Option String) (text : String)
  | unknownInline (name : String) (specialization : Option String) (nested : String)
  | foreign (typeName : String)
  deriving DecidableEq, Repr

namespace Tag

inductive Kind where
  | api
  | author
  | copyright
  | deprecated
  | inheritDoc
  | internal
  | todo
  | version
  | unknownEmpty
  | unknownDescription
  | unknownInline
  | foreign
  deriving DecidableEq, Repr

def kind : Tag → Kind
  | .api => .api
  | .author .. => .author
  | .copyright .. => .copyright
  | .deprecated .. => .deprecated
  | .inheritDoc => .inheritDoc
  | .internal => .internal
  | .todo .. => .todo
  | .version .. => .version
  | .unknownEmpty .. => .unknownEmpty
  | .unknownDescription .. => .unknownDescription
  | .unknownInline .. => .unknownInline
  | .foreign .. => .foreign

end Tag

/-- A comment that has been read. -/
structure Document where
  summary : String := ""
  description : Block := {}
  tags : List Tag := []
  deriving DecidableEq, Repr

/-- The tags of one kind, in order. -/
def Document.tagsOf (d : Document) (kind : Tag.Kind) : List Tag :=
  d.tags.filter fun t => t.kind = kind

/-! ### Strings -/

def Block.strings (b : Block) : List String := [b.source, b.html]

def Tag.strings : Tag → List String
  | .api | .inheritDoc | .internal => []
  | .author name email => name.toList ++ email.toList
  | .copyright description => description.strings
  | .deprecated starting ending description =>
    starting.toList ++ (ending.toList ++ description.toList)
  | .todo description => description.toList.flatMap Block.strings
  | .version number description => number.toList ++ description.toList
  | .unknownEmpty name specialization => name :: specialization.toList
  | .unknownDescription name specialization text => name :: (specialization.toList ++ [text])
  | .unknownInline name specialization nested => name :: (specialization.toList ++ [nested])
  | .foreign typeName => [typeName]

def Document.strings (d : Document) : List String :=
  d.summary :: (d.description.strings ++ d.tags.flatMap Tag.strings)

/-- A string that is a part of a text, or that a renderer has made of one. -/
def Renderer.StemsFrom (renderer : Renderer) (text : List Char) (s : String) : Prop :=
  s.toList <:+: text ∨ ∃ part, part.toList <:+: text ∧ s ∈ (renderer.render part).strings

end DocComment
