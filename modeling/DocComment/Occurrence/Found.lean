import DocComment.Occurrence.Basic
import DocComment.Occurrence.Detail

/-! Reading one tag where it begins. What is found keeps the text it was written as,
and `eq_of_tag?` says that this text and the rest are the whole.

Behind the name come, in this order of preference, a description set off by spaces or
tabs, a signature, or one tag in braces; otherwise the tag is bare and ends with its
name. A tag in braces is one level deeper, and the number of levels still allowed is
the measure by which reading ends. -/

namespace DocComment

/-- Where a tag stands: on a line of its own, or in braces. -/
inductive Context where
  | line
  | braces
  deriving DecidableEq, Repr

/-- What was read behind a name: the body, the text it was written as, and what
follows. -/
structure Detail where
  kind : BodyKind
  body : List Char
  written : List Char
  rest : List Char

/-- An occurrence, the text it was written as, and what follows. `stopped` tells that
a brace was left alone because of the bound on nesting. -/
structure Found where
  occurrence : Occurrence
  written : List Char
  rest : List Char
  stopped : Bool

namespace Occurrence

open Text

/-- A description and the line breaks that end it. -/
def description? (context : Context) (gap s : List Char) : Option Detail :=
  if gap.isEmpty || !opensDescription s then none
  else match context with
    | .line => (lineDescription? s).map fun (body, q) =>
      let breaks := q.takeWhile (· = '\n')
      ⟨.description, strip body, gap ++ (body ++ breaks), q.dropWhile (· = '\n')⟩
    | .braces => (inlineDescription? s).map fun (body, q) =>
      ⟨.description, strip body, gap ++ body, q⟩

/-- The body behind a name, and whether the bound on nesting stopped it. `braced` reads
what is behind an opening brace. -/
def detail (braced : List Char → Option (List Char × List Char) × Bool) (context : Context)
    (s : List Char) : Option Detail × Bool :=
  let gap := s.takeWhile isGap
  let r := s.dropWhile isGap
  match description? context gap r with
  | some d => (some d, false)
  | none =>
    match signature? r with
    | some (body, q) => (some ⟨.signature, body, gap ++ body, q⟩, false)
    | none =>
      match r with
      | '\x7b' :: q =>
        let (found, stopped) := braced q
        (found.map fun (body, rest) => ⟨.inline, body, gap ++ body, rest⟩, stopped)
      | _ => (none, false)

/-- The tag that a text begins with. -/
def tag? (braced : List Char → Option (List Char × List Char) × Bool) (context : Context) :
    List Char → Option Found
  | '@' :: s => (name? s).map fun (name, r) =>
    let (special, r) := splitSpecialization r
    let head := '@' :: (name ++ specializationText special)
    let occurrence (kind : BodyKind) (body : List Char) : Occurrence :=
      ⟨String.ofList name, special.map String.ofList, kind, String.ofList body⟩
    match detail braced context r with
    | (some d, stopped) => ⟨occurrence d.kind d.body, head ++ d.written, d.rest, stopped⟩
    | (none, stopped) => ⟨occurrence .bare [], head, r, stopped⟩
  | _ => none

/-- A tag and its closing brace, behind an opening brace: the text with both braces,
what follows, and whether the bound on nesting stopped it. -/
def braced : Nat → List Char → Option (List Char × List Char) × Bool
  | 0, _ => (none, true)
  | allowed + 1, s =>
    match tag? (braced allowed) .braces s with
    | none => (none, false)
    | some found =>
      match found.rest with
      | '\x7d' :: q => (some ('\x7b' :: (found.written ++ ['\x7d']), q), found.stopped)
      | _ => (none, found.stopped)

/-- The tag that a line begins with. -/
def tagAt? (allowed : Nat) (s : List Char) : Option Found := tag? (braced allowed) .line s

/-! ### Nothing is lost -/

/-- Reading behind a brace loses nothing. -/
def Lossless (braced : List Char → Option (List Char × List Char) × Bool) : Prop :=
  ∀ s body q, (braced s).1 = some (body, q) → '\x7b' :: s = body ++ q

theorem eq_of_description? {context : Context} {gap s : List Char} {d : Detail}
    (h : description? context gap s = some d) : gap ++ s = d.written ++ d.rest := by
  unfold description? at h
  split at h
  · exact absurd h (by simp)
  · cases context with
    | line =>
      obtain ⟨⟨body, q⟩, hb, rfl⟩ := Option.map_eq_some_iff.1 h
      simp [eq_of_lineDescription? hb, List.takeWhile_append_dropWhile]
    | braces =>
      obtain ⟨⟨body, q⟩, hb, rfl⟩ := Option.map_eq_some_iff.1 h
      simp [eq_of_inlineDescription? hb]

theorem eq_of_detail {braced : List Char → Option (List Char × List Char) × Bool}
    (hb : Lossless braced) {context : Context} {s : List Char} {d : Detail}
    (h : (detail braced context s).1 = some d) : s = d.written ++ d.rest := by
  have hs := List.takeWhile_append_dropWhile (p := isGap) (l := s)
  unfold detail at h
  dsimp only at h
  split at h
  next d' hd =>
    simp only [Option.some.injEq] at h
    subst h
    rw [← eq_of_description? hd, hs]
  next =>
    split at h
    next hq =>
      simp only [Option.some.injEq] at h
      subst h
      simp only [List.append_assoc]
      rw [← eq_of_signature? hq, hs]
    next =>
      split at h
      next q hr =>
        obtain ⟨⟨body, rest⟩, hf, rfl⟩ := Option.map_eq_some_iff.1 h
        simp only [List.append_assoc]
        rw [← hb _ _ _ hf, ← hr, hs]
      next => exact absurd h (by simp)

theorem eq_of_tag? {braced : List Char → Option (List Char × List Char) × Bool}
    (hb : Lossless braced) {context : Context} {s : List Char} {found : Found}
    (h : tag? braced context s = some found) : s = found.written ++ found.rest := by
  unfold tag? at h
  split at h
  next s =>
    obtain ⟨⟨name, r⟩, hn, rfl⟩ := Option.map_eq_some_iff.1 h
    have hr := splitSpecialization_append r
    rw [eq_of_name? hn]
    dsimp only
    split
    next d stopped hd =>
      have := eq_of_detail hb (d := d) (by rw [hd])
      simp [← this, hr]
    next => simp [hr]
  next => exact absurd h (by simp)

theorem lossless_braced (allowed : Nat) : Lossless (braced allowed) := by
  induction allowed with
  | zero => intro s body q h; simp [braced] at h
  | succ n ih =>
    intro s body q h
    unfold braced at h
    split at h
    next => exact absurd h (by simp)
    next found hf =>
      split at h
      next q' hr =>
        simp only [Option.some.injEq, Prod.mk.injEq] at h
        obtain ⟨rfl, rfl⟩ := h
        rw [eq_of_tag? ih hf, hr]
        simp
      next => exact absurd h (by simp)

theorem eq_of_tagAt? {allowed : Nat} {s : List Char} {found : Found}
    (h : tagAt? allowed s = some found) : s = found.written ++ found.rest :=
  eq_of_tag? (lossless_braced allowed) h

theorem written_ne_nil_of_tag? {braced : List Char → Option (List Char × List Char) × Bool}
    {context : Context} {s : List Char} {found : Found}
    (h : tag? braced context s = some found) : found.written ≠ [] := by
  unfold tag? at h
  split at h
  · obtain ⟨⟨name, r⟩, -, rfl⟩ := Option.map_eq_some_iff.1 h
    dsimp only
    split <;> simp
  · exact absurd h (by simp)

theorem length_rest_lt {allowed : Nat} {s : List Char} {found : Found}
    (h : tagAt? allowed s = some found) : found.rest.length < s.length := by
  have hw := List.length_pos_iff.2 (written_ne_nil_of_tag? h)
  have := congrArg List.length (eq_of_tagAt? h)
  simp only [List.length_append] at this
  omega

end Occurrence

end DocComment
