import DocComment.Config.File
import DocComment.Outcome

/-! What is checked when settings are loaded, and where a setting comes from. A check is told by
what it looks at and not by what is done before it; `Check.all` is the order of the checks, and
the first one that finds a fault is reported. A setting comes from the file, else from the base
settings or, where there are none, from the environment, else it has a default. -/

namespace DocComment

namespace SettingsFile

/-- The entries of a file. Only one that holds a mapping has any. -/
def entries : SettingsFile → List (Key × Value)
  | .holding (.mapping es) _ => es
  | _ => []

def unknownKeys (file : SettingsFile) : List Key :=
  (file.entries.map Prod.fst).filter (· ∉ Config.knownKeys)

def value? (file : SettingsFile) (key : String) : Option Value := Config.entry? file.entries key

/-- A key of a list with a value that is no list of texts. -/
def LacksTexts (file : SettingsFile) (key : String) : Prop :=
  ∃ v, file.value? key = some v ∧ ∀ ss : List String, v ≠ .list (ss.map .text)

end SettingsFile

namespace Config

inductive Check where
  | base
  | present
  | wellFormed
  | isMapping
  | knownKeys
  | disabledTags
  | extensions
  | environment
  | depth
  deriving DecidableEq, Repr

def Check.all : List Check :=
  [.base, .present, .wellFormed, .isMapping, .knownKeys, .disabledTags, .extensions, .environment,
    .depth]

/-! ### Faults -/

inductive RangeFault (n : Int) : ConfigError → Prop where
  | notPositive (h : n < 1) : RangeFault n (.depthNotPositive n)
  | tooLarge (h : Nesting.ceiling < n) : RangeFault n (.depthTooLarge n)

inductive DepthFault : Value → ConfigError → Prop where
  | type {v : Value} (h : ∀ n, v ≠ .integer n) : DepthFault v .depthType
  | range {n : Int} {err : ConfigError} (h : RangeFault n err) : DepthFault (.integer n) err

/-- An environment whose variable gives no depth. -/
inductive EnvironmentFault (e : Environment) : ConfigError → Prop where
  | text {s : String} (hs : e.maxDepth = some s) (h : Text.integer? s.toList = none) :
    EnvironmentFault e (.depthText s)
  | range {s : String} {n : Int} {err : ConfigError} (hs : e.maxDepth = some s)
      (hn : Text.integer? s.toList = some n) (h : RangeFault n err) : EnvironmentFault e err

/-- Settings of a caller that give no depth, or leave it to an environment that gives none. -/
inductive SettingsFault (e : Environment) (s : Settings) : ConfigError → Prop where
  | given {v : Value} {err : ConfigError} (hv : s.maxDepth = some v) (h : DepthFault v err) :
    SettingsFault e s err
  | left {err : ConfigError} (hn : s.maxDepth = none) (h : EnvironmentFault e err) :
    SettingsFault e s err

/-- What a check finds, with the error that it leads to. -/
inductive Fault (e : Environment) (base : Option Settings) (file : SettingsFile) :
    Check → LoadError → Prop where
  | base {s : Settings} {err : ConfigError} (hs : base = some s) (h : SettingsFault e s err) :
    Fault e base file .base (.refused err)
  | missing {path : String} (h : file = .missing path) :
    Fault e base file .present (.refused (.fileMissing path))
  | unreadable {kind message : String} (h : file = .unreadable kind message) :
    Fault e base file .wellFormed (.unreadable kind message)
  | malformed (h : file = .malformed) : Fault e base file .wellFormed (.refused .fileMalformed)
  | noMapping {v : Value} {hv : v.KeysDiffer} (h : file = .holding v hv) (hnull : v ≠ .null)
      (hmapping : ∀ es, v ≠ .mapping es) :
    Fault e base file .isMapping (.refused (.noMapping v.typeName))
  | unknownKeys {keys : List Key} (hne : keys ≠ []) (hkeys : keys.Perm file.unknownKeys)
      (hordered : file.unknownKeys.Pairwise Key.Comparable)
      (hascending : keys.Pairwise fun a b => a.le b = true) :
    Fault e base file .knownKeys (.refused (.unknownKeys keys))
  | unordered (h : ¬ file.unknownKeys.Pairwise Key.Comparable) :
    Fault e base file .knownKeys .unordered
  | disabledTags (h : file.LacksTexts disabledKey) :
    Fault e base file .disabledTags (.refused (.noTextList disabledKey))
  | extensions (h : file.LacksTexts extensionsKey) :
    Fault e base file .extensions (.refused (.noTextList extensionsKey))
  | environment {err : ConfigError} (hb : base = none) (h : EnvironmentFault e err) :
    Fault e base file .environment (.refused err)
  | depth {v : Value} {err : ConfigError} (hv : file.value? depthKey = some v)
      (h : DepthFault v err) :
    Fault e base file .depth (.refused err)

/-! ### Layers -/

/-- Base settings of a caller that have been built. -/
inductive Built (e : Environment) : Option Settings → Option Config → Prop where
  | none : Built e none none
  | some {s : Settings} {b : Config} (h : build e s = .ok b) : Built e (some s) (some b)

/-- A setting with the value that the file has for it, else with that of the base, else with
that of the environment, else with its default. -/
def IsLayered {α : Type} (inFile : Option Value) (toValue : α → Value)
    (inBase inEnvironment : Option α) (default x : α) : Prop :=
  inFile = some (toValue x) ∨ inFile = none ∧ x = inBase.getD (inEnvironment.getD default)

/-- Settings whose fields come from the layers, each on its own. -/
structure Layered (e : Environment) (base : Option Config) (file : SettingsFile) (c : Config) :
    Prop where
  maxDepth : IsLayered (file.value? depthKey) .integer (base.map Config.maxDepth)
    (e.maxDepth.bind fun s => Text.integer? s.toList) Nesting.default c.maxDepth
  disabledTags : IsLayered (file.value? disabledKey) (fun ss => .list (ss.map .text))
    (base.map Config.disabledTags) (e.disabledTags.map items) [] c.disabledTags
  extensions : IsLayered (file.value? extensionsKey) (fun ss => .list (ss.map .text))
    (base.map Config.extensions) (e.extensions.map items) ["extra"] c.extensions

end Config

end DocComment
