import DocComment.Occurrence.Basic
import DocComment.Document
import DocComment.Version

/-! What the built-in tags make of their bodies. Four of them ignore the body, the
others accept a description, and all but `copyright` of those accept no body. A
version is read from the beginning of a description of one line; a description of
several lines counts as none. -/

namespace DocComment

/-- Turns the body of an occurrence into a tag, or rejects it. -/
structure Interpreter where
  interpret : BodyKind → (body : String) → (specialization : Option String) → Option Tag

inductive Builtin where
  | api
  | author
  | copyright
  | deprecated
  | inheritDoc
  | internal
  | todo
  | version
  deriving DecidableEq, Repr

namespace Builtin

/-- The built-in tags in the order they are registered in. -/
def all : List Builtin :=
  [.api, .author, .copyright, .deprecated, .inheritDoc, .internal, .todo, .version]

def name : Builtin → String
  | .api => "api"
  | .author => "author"
  | .copyright => "copyright"
  | .deprecated => "deprecated"
  | .inheritDoc => "inheritDoc"
  | .internal => "internal"
  | .todo => "todo"
  | .version => "version"

def ofName? (n : String) : Option Builtin := all.find? fun b => b.name == n

/-- A starting version, an ending version behind a colon and a remark, each of which
may be left out. -/
def deprecatedTag (body : List Char) : Tag :=
  if body.contains '\n' then .deprecated none none none
  else
    let (starting, r) := Version.leading body
    let (ending, r) := Version.ending r
    .deprecated (starting.map String.ofList) (ending.map String.ofList)
      ((Version.remark r).map String.ofList)

/-- A version and a remark, each of which may be left out. -/
def versionTag (body : List Char) : Tag :=
  if body.contains '\n' then .version none none
  else
    let (number, r) := Version.leading body
    .version (number.map String.ofList) ((Version.remark r).map String.ofList)

/-- The tag of a body, unless its kind is rejected. -/
def tag? (renderer : Renderer) (b : Builtin) (kind : BodyKind) (body : String) : Option Tag :=
  match b, kind with
  | .api, _ => some .api
  | .author, _ => some (.author none none)
  | .inheritDoc, _ => some .inheritDoc
  | .internal, _ => some .internal
  | .copyright, .description => some (.copyright (renderer.render body))
  | .todo, .bare => some (.todo none)
  | .todo, .description => some (.todo (some (renderer.render body)))
  | .deprecated, .bare => some (.deprecated none none none)
  | .deprecated, .description => some (deprecatedTag body.toList)
  | .version, .bare => some (.version none none)
  | .version, .description => some (versionTag body.toList)
  | _, _ => none

/-- The interpreter of a built-in tag. It ignores the specialization. -/
def interpreter (renderer : Renderer) (b : Builtin) : Interpreter :=
  ⟨fun kind body _ => b.tag? renderer kind body⟩

end Builtin

end DocComment
