import DocComment.Text.Basic

/-! The comments of a source text. A comment begins with `/**` that no `/` follows, since `/**/` is
an ordinary empty comment, and ends with the first `*/` behind that. Woven source text is comments
with other text around them. A comment may hold anything but a closing, and a slash right behind its
opening would make it an ordinary comment. -/

namespace DocComment.Comment

/-- A text up to the first `*/`, and what follows that. -/
def untilClosing? : List Char → Option (List Char × List Char)
  | [] => none
  | '*' :: '/' :: r => some ([], r)
  | c :: r => (untilClosing? r).map fun (body, q) => (c :: body, q)

theorem eq_of_untilClosing? {s body q : List Char} (h : untilClosing? s = some (body, q)) :
    s = body ++ '*' :: '/' :: q := by
  fun_induction untilClosing? s generalizing body with
  | case1 => exact absurd h (by simp)
  | case2 r => simp_all
  | case3 c r _ ih =>
    obtain ⟨⟨b, q'⟩, hb, he⟩ := Option.map_eq_some_iff.1 h
    simp only [Prod.mk.injEq] at he
    obtain ⟨rfl, rfl⟩ := he
    simp [ih hb]

/-- The body of a comment that a text begins with, and what follows the comment. -/
def body? (s : List Char) : Option (List Char × List Char) :=
  match Text.after? ['/', '*', '*'] s with
  | some ('/' :: _) => none
  | some r => untilClosing? r
  | none => none

theorem eq_of_body? {s body q : List Char} (h : body? s = some (body, q)) :
    s = '/' :: '*' :: '*' :: (body ++ '*' :: '/' :: q) := by
  unfold body? at h
  split at h
  next => exact absurd h (by simp)
  next r _ hr =>
    rw [Text.after?_eq_some_iff.1 hr, eq_of_untilClosing? h]
    rfl
  next => exact absurd h (by simp)

theorem length_lt_of_body? {s body q : List Char} (h : body? s = some (body, q)) :
    q.length < s.length := by
  have := congrArg List.length (eq_of_body? h)
  simp only [List.length_cons, List.length_append] at this
  omega

def bodies : List Char → List (List Char)
  | [] => []
  | c :: r =>
    match h : body? (c :: r) with
    | some (body, q) =>
      have := length_lt_of_body? h
      body :: bodies q
    | none => bodies r
termination_by s => s.length
decreasing_by
  · exact this
  · exact Nat.lt_succ_self r.length

/-- A comment as it is written. -/
def wrap (body : List Char) : List Char :=
  '/' :: '*' :: '*' :: (body ++ ['*', '/'])

/-- The comments of a source text, in order, with their decoration. -/
def extract (source : String) : List String :=
  (bodies source.toList).map fun body => String.ofList (wrap body)

/-! ### Comments with other text around them -/

/-- A text in which no comment ends. -/
def Unclosed (s : List Char) : Prop := ¬ ['*', '/'] <:+: s

instance (s : List Char) : Decidable (Unclosed s) := inferInstanceAs (Decidable (¬ _))

/-- A text in which no comment begins. -/
def Unopened (s : List Char) : Prop := ¬ ['/', '*', '*'] <:+: s

instance (s : List Char) : Decidable (Unopened s) := inferInstanceAs (Decidable (¬ _))

/-- What may stand between the opening and the closing of a comment. -/
structure IsBody (s : List Char) : Prop where
  unclosed : Unclosed s
  head : s.head? ≠ some '/'

instance (s : List Char) : Decidable (IsBody s) :=
  decidable_of_iff (Unclosed s ∧ s.head? ≠ some '/') ⟨fun ⟨hu, hh⟩ => ⟨hu, hh⟩,
    fun h => ⟨h.unclosed, h.head⟩⟩

/-- A comment and what stands between it and the next one. -/
structure Segment where
  body : List Char
  behind : List Char
  isBody : IsBody body

def Segment.comment (p : Segment) : String := String.ofList (wrap p.body)

/-- A source text, from what stands before the first comment on. -/
def woven (front : List Char) : List Segment → List Char
  | [] => front
  | p :: ps => front ++ (wrap p.body ++ woven p.behind ps)

/-- What stands before, between and behind the comments. -/
def fillers (front : List Char) (ps : List Segment) : List (List Char) :=
  front :: ps.map Segment.behind

end DocComment.Comment
