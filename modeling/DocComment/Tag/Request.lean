import DocComment.Tag.Registry

/-! Requests to a registry. A caller registers, freezes and asks in any order; each
request is answered from the registry as the requests before have left it. A registration counts when
its name is one that tags can have, it hands over an interpreter and nothing has been frozen before;
`Records` says what the counted ones make of an empty registry, and `Keeps` what a single request
leaves as it is. -/

namespace DocComment

inductive Request (ι : Type) where
  | register (name : Value) (candidate : Candidate ι)
  | freeze
  | index (name : String)
  | get (name : String)
  | contains (name : String)
  | order
  | available
  | resolve (o : Occurrence)

inductive Reply (ι : Type) where
  | done
  | refused (e : RegistryError)
  | interpreter (i : Option ι)
  | held (b : Bool)
  | names (ns : List String)
  | tag (t : Option Tag)

namespace Registry

variable {ι : Type}

/-- The interpreters of a registry, where `use` tells what an entry does. -/
def interpreters (use : ι → Interpreter) (r : Registry ι) : Interpreters :=
  fun name => (r.get? name).map use

/-- Answers a request. A refused request leaves the registry as it is. -/
def answer (use : ι → Interpreter) (r : Registry ι) : Request ι → Reply ι × Registry ι
  | .register name candidate =>
    match r.register name candidate with
    | .ok s => (.done, s)
    | .error e => (.refused e, r)
  | .freeze => (.done, r.freeze)
  | .index name =>
    match r.get? name with
    | some i => (.interpreter (some i), r)
    | none => (.refused (.unknownName name), r)
  | .get name => (.interpreter (r.get? name), r)
  | .contains name => (.held (r.get? name).isSome, r)
  | .order => (.names r.names, r)
  | .available => (.names r.available, r)
  | .resolve o => (.tag (o.resolve (r.interpreters use)), r)

def answerAll (use : ι → Interpreter) (r : Registry ι) :
    List (Request ι) → List (Reply ι) × Registry ι
  | [] => ([], r)
  | q :: qs =>
    let (reply, next) := r.answer use q
    let (replies, last) := next.answerAll use qs
    (reply :: replies, last)

end Registry

/-! ### What requests leave behind -/

variable {ι : Type}

namespace Request

def isFreeze : Request ι → Bool
  | .freeze => true
  | _ => false

/-- Whether a request only asks. -/
def isRead : Request ι → Bool
  | .register .. | .freeze => false
  | .index _ | .get _ | .contains _ | .order | .available | .resolve _ => true

/-- The name and the interpreter of a registration that an open registry takes. -/
def entry? : Request ι → Option (String × ι)
  | .register (.text name) (.interpreter i) =>
    if Occurrence.isName name then some (name, i) else none
  | _ => none

end Request

namespace Registry

/-- What requests write into an open registry, in order. -/
def writes (qs : List (Request ι)) : List (String × ι) :=
  (qs.takeWhile fun q => !q.isFreeze).filterMap Request.entry?

/-- A registry holds what requests have written: each name with what was written last, in the
order of what was written first. -/
structure Records (qs : List (Request ι)) (r : Registry ι) : Prop where
  content : ∀ name, r.get? name = (writes qs).reverse.lookup name
  order : r.names = ((writes qs).map Prod.fst).eraseDups
  size : r.size = r.names.length
  frozen : r.frozen = qs.any Request.isFreeze
  valid : ∀ name ∈ r.names, Occurrence.isName name = true
  ascending : r.available.Pairwise (· < ·)
  listed : r.available.Perm r.names

/-- The reply to a request that only asks, by what has been written: a name has what was written
last, and the names have the order of what was written first. -/
inductive Tells (use : ι → Interpreter) (ws : List (String × ι)) : Request ι → Reply ι → Prop where
  | index {name : String} {i : ι} (h : ws.reverse.lookup name = some i) :
    Tells use ws (.index name) (.interpreter (some i))
  | missing {name : String} (h : ws.reverse.lookup name = none) :
    Tells use ws (.index name) (.refused (.unknownName name))
  | get (name : String) : Tells use ws (.get name) (.interpreter (ws.reverse.lookup name))
  | contains (name : String) :
    Tells use ws (.contains name) (.held (ws.reverse.lookup name).isSome)
  | order : Tells use ws .order (.names (ws.map Prod.fst).eraseDups)
  | available {ns : List String} (h : ns.Perm (ws.map Prod.fst).eraseDups)
      (hascending : ns.Pairwise (· < ·)) : Tells use ws .available (.names ns)
  | resolve (o : Occurrence) :
    Tells use ws (.resolve o) (.tag (o.resolve fun name => (ws.reverse.lookup name).map use))

/-- A registration that is not taken: by a frozen registry, under what is no name of a tag, or
of what is no interpreter. -/
def Refuses (r : Registry ι) (name : Value) (candidate : Candidate ι) : Prop :=
  r.frozen = true ∨ (∀ n, name = .text n → Occurrence.isName n = false) ∨
    ∃ v, candidate = .other v

/-- A request that writes nothing leaves the registry as it is, and none opens it again. -/
structure Keeps (use : ι → Interpreter) (r : Registry ι) (q : Request ι) : Prop where
  refused : ∀ name candidate, q = .register name candidate → r.Refuses name candidate →
    ∃ e, r.answer use q = (.refused e, r) ∧ ∀ n, e ≠ .unknownName n
  read : q.isRead = true → (r.answer use q).2 = r
  frozen : r.frozen = true → (r.answer use q).2.frozen = true

end Registry

end DocComment
