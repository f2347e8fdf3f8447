import DocComment.Tag.Interpreter
import DocComment.Value

/-! Interpreters by name. A registry keeps names in the order they were first registered in;
registering a name again replaces its interpreter in place. Once it is frozen, a registry is only
read. Callers may hand over anything as a name or as an interpreter, so `register` checks both and
says what is wrong. The interpreter of its name makes a tag of an occurrence or rejects it; a name
without an interpreter gives an unknown tag, chosen by the kind of the body alone. Rejected
occurrences are left out, the others keep their order. -/

namespace DocComment

/-! ### Occurrences resolved to tags -/

abbrev Interpreters := String → Option Interpreter

namespace Occurrence

/-- The tag of an occurrence whose name has no interpreter. A signature is kept as
text. -/
def unknown (o : Occurrence) : Tag :=
  match o.kind with
  | .bare => .unknownEmpty o.name o.specialization
  | .inline => .unknownInline o.name o.specialization o.body
  | .description | .signature => .unknownDescription o.name o.specialization o.body

/-- The tag of an occurrence, unless its interpreter rejects it. -/
def resolve (interpreters : Interpreters) (o : Occurrence) : Option Tag :=
  match interpreters o.name with
  | none => some o.unknown
  | some i => i.interpret o.kind o.body o.specialization

def resolveAll (interpreters : Interpreters) (os : List Occurrence) : List Tag :=
  os.filterMap (resolve interpreters)

end Occurrence

/-! ### Registries -/

/-- Interpreters of a type by name, in the order of registration. -/
structure Registry (ι : Type) where
  entries : List (String × ι) := []
  frozen : Bool := false

/-- What a caller hands over as an interpreter. -/
inductive Candidate (ι : Type) where
  | interpreter (i : ι)
  | other (v : Value)

inductive RegistryError where
  | frozen (name : Value)
  | invalidName (name : Value)
  | noInterpreter (name : String) (got : Value)
  | unknownName (name : String)
  deriving Repr

def RegistryError.message : RegistryError → String
  | .frozen name => "Cannot register '" ++ String.ofList name.plain ++ "': the registry is frozen"
  | .invalidName name => "Invalid tag name: " ++ String.ofList name.display
  | .noInterpreter name got =>
    "Interpreter for '" ++ name ++ "' must be a TagInterpreter, got " ++ got.typeName
  | .unknownName name => String.ofList (Text.quoted name.toList)

namespace Registry

variable {ι : Type}

/-- Entries with one more: a name that is there keeps its place. -/
def insert (name : String) (i : ι) : List (String × ι) → List (String × ι)
  | [] => [(name, i)]
  | e :: es => if e.1 = name then (name, i) :: es else e :: insert name i es

/-- A registry with an interpreter under a name, whatever either is like. -/
def put (r : Registry ι) (name : String) (i : ι) : Registry ι :=
  { r with entries := insert name i r.entries }

/-- Registers an interpreter. A frozen registry takes nothing, a name has to be one
that tags can have, and only an interpreter is taken; the first of these that fails
is told. -/
def register (r : Registry ι) (name : Value) (candidate : Candidate ι) :
    Except RegistryError (Registry ι) :=
  if r.frozen then .error (.frozen name)
  else match name with
    | .text n =>
      if Occurrence.isName n then
        match candidate with
        | .interpreter i => .ok (r.put n i)
        | .other v => .error (.noInterpreter n v)
      else .error (.invalidName name)
    | _ => .error (.invalidName name)

def freeze (r : Registry ι) : Registry ι := { r with frozen := true }

def get? (r : Registry ι) (name : String) : Option ι :=
  (r.entries.find? fun e => e.1 = name).map Prod.snd

def names (r : Registry ι) : List String := r.entries.map Prod.fst

def size (r : Registry ι) : Nat := r.entries.length

/-- The names in ascending order of their code points. -/
def available (r : Registry ι) : List String := r.names.mergeSort fun a b => a ≤ b

/-- The frozen registry of the built-in tags without those of some names. -/
def builtin (renderer : Renderer) (disabled : List String) : Registry Interpreter :=
  let enabled := Builtin.all.filter fun b => !disabled.contains b.name
  freeze (enabled.foldl (fun r b => r.put b.name (b.interpreter renderer)) {})

end Registry

/-! ### Built-in tags that are disabled -/

/-- The tags of occurrences under the built-in tags without those of some names. -/
def Occurrence.tagsWithout (renderer : Renderer) (disabled : List String)
    (os : List Occurrence) : List Tag :=
  resolveAll (Registry.builtin renderer disabled).get? os

/-- The unknown tag of the kind of a body, with all that an occurrence says. -/
inductive Tag.IsUnknown (o : Occurrence) : Tag → Prop where
  | empty (hk : o.kind = .bare) : IsUnknown o (.unknownEmpty o.name o.specialization)
  | description (hk : o.kind = .description ∨ o.kind = .signature) :
    IsUnknown o (.unknownDescription o.name o.specialization o.body)
  | inline (hk : o.kind = .inline) :
    IsUnknown o (.unknownInline o.name o.specialization o.body)

/-- What an occurrence contributes where some names are disabled, and where more are. -/
structure Occurrence.Contributes (disabled more : List String) (o : Occurrence)
    (before after : Option Tag) : Prop where
  same : o.name ∉ more ∨ o.name ∈ disabled → after = before
  unknown : o.name ∈ more ∨ (∀ b : Builtin, b.name ≠ o.name) →
    ∃ t, after = some t ∧ Tag.IsUnknown o t

end DocComment
