import DocComment.Config.Basic

/-! Settings from a file. The file holds a mapping with known keys only, or nothing; a
key that it lacks keeps the value of the base settings, and without base settings
that of the environment. Refused settings are reported as such. An error of another kind on the way,
in reading the file or in putting unknown keys in order for the report, is passed on. -/

namespace DocComment

/-- What there is to load. An empty file holds nothing. Reading may also stop with an error that is
not about the form of the contents, as over bytes that are no text or a day that no calendar has. -/
inductive SettingsFile where
  | missing (path : String)
  | unreadable (kind message : String)
  | malformed
  | holding (v : Value) (h : v.KeysDiffer)

inductive LoadError where
  | refused (err : ConfigError)
  | unreadable (kind message : String)
  | unordered
  deriving DecidableEq, Repr

instance : MonadLift (Except ConfigError) (Except LoadError) := ⟨Except.mapError .refused⟩

namespace Config

def knownKeys : List Key := [.text depthKey, .text disabledKey, .text extensionsKey]

/-- The entries of a mapping with known keys only. -/
def entriesOf : Value → Except LoadError (List (Key × Value))
  | .null => .ok []
  | .mapping es =>
    match (es.map Prod.fst).filter fun k => !knownKeys.contains k with
    | [] => .ok es
    | unknown =>
      match Key.ascending? unknown with
      | some keys => .error (.refused (.unknownKeys keys))
      | none => .error .unordered
  | v => .error (.refused (.noMapping v.typeName))

def entry? (es : List (Key × Value)) (key : String) : Option Value :=
  (es.find? fun e => e.1 = .text key).map Prod.snd

/-- The texts of a list that holds nothing else. -/
def textsOf? : List Value → Option (List String)
  | [] => some []
  | .text s :: vs => (textsOf? vs).map (s :: ·)
  | _ :: _ => none

/-- The list of texts under a key, if the key is there. -/
def textList? (es : List (Key × Value)) (key : String) :
    Except ConfigError (Option (List String)) :=
  match entry? es key with
  | none => .ok none
  | some (.list vs) =>
    match textsOf? vs with
    | some ss => .ok (some ss)
    | none => .error (.noTextList key)
  | some _ => .error (.noTextList key)

/-- The settings in a file, over those of a base. -/
def load (e : Environment) (base : Option Config) (file : SettingsFile) :
    Except LoadError Config := do
  let v ← match file with
    | .missing path => throw (.refused (.fileMissing path))
    | .unreadable kind message => throw (.unreadable kind message)
    | .malformed => throw (.refused .fileMalformed)
    | .holding v _ => pure v
  let es ← entriesOf v
  let disabled ← textList? es disabledKey
  let extensions ← textList? es extensionsKey
  let base ← match base with
    | some c => pure c
    | none => build e {}
  let depth ← match entry? es depthKey with
    | some v => depthOf v
    | none => pure base.maxDepth
  pure {
    maxDepth := depth
    disabledTags := disabled.getD base.disabledTags
    extensions := extensions.getD base.extensions }

/-- The settings in a file over base settings of a caller, which are built first. -/
def loadOver (e : Environment) (base : Option Settings) (file : SettingsFile) :
    Except LoadError Config := do
  match base with
  | none => load e none file
  | some s => load e (some (← build e s)) file

end Config

end DocComment
