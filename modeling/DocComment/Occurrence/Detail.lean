import DocComment.Text.Basic

/-! The forms of a body that hold no tag themselves. Each reader gives the body with
what follows it, and nothing is lost between the two. -/

namespace DocComment.Occurrence

/-- Whether a description is over where its line breaks have been skipped: at the end
of the text or before a tag. -/
def endsDescription : List Char → Bool
  | [] => true
  | c :: _ => c == '@'

/-- A description that runs over lines, up to the line breaks before a tag or before
the end of the text. A blank line that no tag follows leaves no description at all. -/
def lineDescription? : List Char → Option (List Char × List Char)
  | [] => some ([], [])
  | c :: r =>
    if c = '\n' then
      if endsDescription (r.dropWhile (· = '\n')) then some ([], c :: r)
      else if r.head? = some '\n' then none
      else (lineDescription? r).map fun (body, q) => (c :: body, q)
    else (lineDescription? r).map fun (body, q) => (c :: body, q)

theorem eq_of_lineDescription? {s body q : List Char} (h : lineDescription? s = some (body, q)) :
    s = body ++ q := by
  induction s generalizing body with
  | nil => simp_all [lineDescription?]
  | cons c r ih =>
    simp only [lineDescription?] at h
    split at h
    · split at h
      · simp_all
      · split at h
        · exact absurd h (by simp)
        · obtain ⟨⟨b, q'⟩, hb, he⟩ := Option.map_eq_some_iff.1 h
          simp only [Prod.mk.injEq] at he
          obtain ⟨rfl, rfl⟩ := he
          simp [ih hb]
    · obtain ⟨⟨b, q'⟩, hb, he⟩ := Option.map_eq_some_iff.1 h
      simp only [Prod.mk.injEq] at he
      obtain ⟨rfl, rfl⟩ := he
      simp [ih hb]

/-- A description inside braces: at least one character, up to the closing brace on
the same line. -/
def inlineDescription? (s : List Char) : Option (List Char × List Char) :=
  let inside (c : Char) : Bool := c != '\x7d' && c != '\n'
  match s.takeWhile inside, s.dropWhile inside with
  | [], _ => none
  | body, '\x7d' :: q => some (body, '\x7d' :: q)
  | _, _ => none

theorem eq_of_inlineDescription? {s body q : List Char}
    (h : inlineDescription? s = some (body, q)) : s = body ++ q := by
  simp only [inlineDescription?] at h
  split at h
  next => exact absurd h (by simp)
  next hd _ =>
    simp only [Option.some.injEq, Prod.mk.injEq] at h
    obtain ⟨rfl, rfl⟩ := h
    rw [← hd, List.takeWhile_append_dropWhile]
  next => exact absurd h (by simp)

/-- Whether a character may open a description. White space before it has been
skipped. -/
def opensDescription : List Char → Bool
  | [] => false
  | c :: _ => c != '(' && c != '\x7b' && c != '\n'

/-- A signature: parentheses around at least one character that is neither a comma
nor a closing parenthesis; one comma may stand at the end, with spaces and tabs
behind it. -/
def signature? : List Char → Option (List Char × List Char)
  | '(' :: s =>
    let inside (c : Char) : Bool := c != ',' && c != ')'
    match s.takeWhile inside, s.dropWhile inside with
    | [], _ => none
    | body, ')' :: q => some ('(' :: (body ++ [')']), q)
    | body, ',' :: r =>
      match r.dropWhile Text.isGap with
      | ')' :: q => some ('(' :: (body ++ ',' :: (r.takeWhile Text.isGap ++ [')'])), q)
      | _ => none
    | _, _ => none
  | _ => none

theorem eq_of_signature? {s body q : List Char} (h : signature? s = some (body, q)) :
    s = body ++ q := by
  unfold signature? at h
  split at h
  next s =>
    dsimp only at h
    split at h
    next => exact absurd h (by simp)
    next hd _ =>
      simp only [Option.some.injEq, Prod.mk.injEq] at h
      obtain ⟨rfl, rfl⟩ := h
      have := List.takeWhile_append_dropWhile (p := fun c => c != ',' && c != ')') (l := s)
      rw [hd] at this
      simpa using this.symm
    next r hd _ =>
      split at h
      next hr =>
        simp only [Option.some.injEq, Prod.mk.injEq] at h
        obtain ⟨rfl, rfl⟩ := h
        have := List.takeWhile_append_dropWhile (p := fun c => c != ',' && c != ')') (l := s)
        have hg := List.takeWhile_append_dropWhile (p := Text.isGap) (l := r)
        rw [hd, ← hg, hr] at this
        simpa using this.symm
      next => exact absurd h (by simp)
    next => exact absurd h (by simp)
  next => exact absurd h (by simp)

end DocComment.Occurrence
