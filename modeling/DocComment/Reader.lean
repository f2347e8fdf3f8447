import DocComment.Comment.Decoration
import DocComment.Comment.Source
import DocComment.Config.Basic
import DocComment.Document
import DocComment.Occurrence.Scan
import DocComment.Regions
import DocComment.Tag.Registry
import DocComment.TypeExpr.Reader

/-! Readers of comments. A comment loses its decoration, is cut into regions, the tags
region is scanned for occurrences, and these are resolved to tags. Every text gives a
document; one without regions gives the empty document. What happens on the way and leaves no trace
in the document is noted as an event. -/

namespace DocComment

/-- Something that a reader notes. -/
inductive Event where
  | noRegions
  | nestingStopped (bound : Int)
  | rejected (name : String) (kind : BodyKind)
  deriving DecidableEq, Repr

def Event.message : Event → String
  | .noRegions => "Doc block did not match; using the empty document"
  | .nestingStopped bound => "Inline tag nesting deeper than " ++ toString bound ++ " ignored"
  | .rejected name kind =>
    "Dropped @" ++ name ++ ": its interpreter rejects " ++ kind.label ++ " bodies"

structure Reader where
  renderer : Renderer
  interpreters : Interpreters
  config : Config

namespace Reader

/-- A reader with the built-in tags that its settings leave enabled. -/
def builtin (renderer : Renderer) (config : Config) : Reader :=
  ⟨renderer, (Registry.builtin renderer config.disabledTags).get?, config⟩

def document (reader : Reader) (regions : Regions) : Document where
  summary := regions.summary
  description := reader.renderer.render regions.description
  tags := Occurrence.resolveAll reader.interpreters
    (Occurrence.scan reader.config.maxDepth regions.tags)

/-- The document of a comment, with or without its decoration. -/
def read (reader : Reader) (comment : String) : Document :=
  match Regions.of? (Comment.undecorate comment) with
  | none => {}
  | some regions => reader.document regions

/-- The occurrences in the tags region of a comment, in order. -/
def occurrences (reader : Reader) (comment : String) : List Occurrence :=
  match Regions.of? (Comment.undecorate comment) with
  | none => []
  | some regions => Occurrence.scan reader.config.maxDepth regions.tags

def readAll (reader : Reader) (comments : List String) : List Document :=
  comments.map reader.read

def readSource (reader : Reader) (path : String) (file : SourceFile) :
    Except SourceError (List Document) :=
  (Comment.ofSource path file).map reader.readAll

/-- The type that a text denotes under the reader's bound on nesting. -/
def readType (reader : Reader) (text : String) : Option TypeExpr :=
  TypeExpr.parse? reader.config.maxDepth text

/-- What is noted while a tags region is scanned. -/
def scanEvents (asked : Int) (tags : String) : List Event :=
  (Occurrence.pieces (Nesting.allowance asked) tags.toList).filterMap fun p =>
    if p.stopped then some (.nestingStopped (Nesting.bounded asked)) else none

def resolveEvents (interpreters : Interpreters) (os : List Occurrence) : List Event :=
  os.filterMap fun o =>
    if (o.resolve interpreters).isNone then some (.rejected o.name o.kind) else none

def events (reader : Reader) (comment : String) : List Event :=
  match Regions.of? (Comment.undecorate comment) with
  | none => [.noRegions]
  | some regions =>
    let depth := reader.config.maxDepth
    scanEvents depth regions.tags ++
      resolveEvents reader.interpreters (Occurrence.scan depth regions.tags)

end Reader

end DocComment
