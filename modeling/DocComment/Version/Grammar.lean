import DocComment.Occurrence.Basic
import DocComment.Version

/-! What a version is, by its characters and not by a reader, and how a text of one line is cut into
a version, an ending version behind a colon, a gap and the rest. A reader that may leave something
out reads nothing where no beginning of the text has the form, so that the longest one is empty
there. -/

namespace DocComment

/-- The longest beginning of a text that has a form, or nothing where no beginning has it. -/
inductive Text.IsLongest (form : List Char → Prop) (s : List Char) : List Char → Prop where
  | found {v : List Char} (hv : form v) (hs : v <+: s)
      (hmax : ∀ w, form w → w <+: s → w.length ≤ v.length) : Text.IsLongest form s v
  | missing (hno : ∀ w, form w → ¬ w <+: s) : Text.IsLongest form s []

namespace Version

open Text

/-- A number without leading zeros. -/
inductive IsNumber : List Char → Prop where
  | zero : IsNumber ['0']
  | digits {c : Char} {ds : List Char} (hc : isDigit c = true) (hz : c ≠ '0')
      (hd : ∀ d ∈ ds, isDigit d = true) : IsNumber (c :: ds)

/-- One or more runs of letters, digits and hyphens with a period between each two. -/
inductive IsIdentifiers : List Char → Prop where
  | one {c : Char} {l : List Char} (hc : isIdentifierPart c = true)
      (hl : ∀ d ∈ l, isIdentifierPart d = true) : IsIdentifiers (c :: l)
  | more {c : Char} {l r : List Char} (hc : isIdentifierPart c = true)
      (hl : ∀ d ∈ l, isIdentifierPart d = true) (hr : IsIdentifiers r) :
    IsIdentifiers (c :: (l ++ '.' :: r))

/-- Nothing, or a hyphen and identifiers. -/
inductive IsPreRelease : List Char → Prop where
  | none : IsPreRelease []
  | some {l : List Char} (h : IsIdentifiers l) : IsPreRelease ('-' :: l)

/-- Three numbers with a period between each two, and possibly a pre-release. -/
inductive IsVersion : List Char → Prop where
  | mk {major minor patch pre : List Char} (hmajor : IsNumber major) (hminor : IsNumber minor)
      (hpatch : IsNumber patch) (hpre : IsPreRelease pre) :
    IsVersion (major ++ '.' :: (minor ++ '.' :: (patch ++ pre)))

/-- A version behind a colon. -/
inductive IsEnding : List Char → Prop where
  | mk {v : List Char} (hv : IsVersion v) : IsEnding (':' :: v)

/-- A text cut into a version, what may stand behind it in a form, a gap and the rest. Each of
the first three is as long as it can be. -/
structure IsCut (form : List Char → Prop) (s version ending gap rest : List Char) : Prop where
  whole : s = version ++ (ending ++ (gap ++ rest))
  version : IsLongest IsVersion s version
  ending : IsLongest form (ending ++ (gap ++ rest)) ending
  gap : IsLongest (fun l => ∀ c ∈ l, isGap c = true) (gap ++ rest) gap

/-- The field of a tag that holds a part of a text; an empty part leaves it out. -/
def field (l : List Char) : Option String := if l = [] then none else some (String.ofList l)

end Version

/-- A description of one line that begins with a colon and a version. -/
structure Occurrence.LeadsWithEnding (o : Occurrence) : Prop where
  kind : o.kind = .description
  line : '\n' ∉ o.body.toList
  ending : ∃ e, Version.IsEnding e ∧ e <+: o.body.toList

end DocComment
