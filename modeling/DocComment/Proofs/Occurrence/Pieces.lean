import DocComment.Proofs.Occurrence.Forms

/-! How reading goes on through a text. At the beginning of a line a tag is read and reading goes on
behind it, or the line is passed over; every statement about the occurrences of a text follows these
two steps.

What is read stands in the text: a name, a specialization and a body are parts of it, a body in
braces since reading it loses nothing, a description since only white space at its ends is left out.
And it can be written out and read again: in a text whose white space is spaces, tabs and breaks
every occurrence is well-formed, and well-formed occurrences are read back from their written
form. -/

namespace DocComment

/-- Where reading goes on behind a tag: a description has taken its breaks along, and behind
any other body the line is over. -/
def Found.next (found : Found) : List Char :=
  if found.occurrence.kind = .description then found.rest else (Text.cutLine found.rest).2

namespace Occurrence

open Text

/-- The occurrences of a text that begins at the beginning of a line. -/
def occurrences (allowed : Nat) (s : List Char) : List Occurrence :=
  (pieces allowed s).filterMap Piece.occurrence?

theorem scan_eq (asked : Int) (text : String) :
    scan asked text = occurrences (Nesting.allowance asked) text.toList := rfl

variable {allowed : Nat} {s : List Char} {found : Found}

theorem tagAt?_nil (allowed : Nat) : tagAt? allowed [] = none := rfl

theorem pieces_of_none (hs : s ≠ []) (h : tagAt? allowed s = none) :
    pieces allowed s = .other (cutLine s).1 :: pieces allowed (cutLine s).2 := by
  rw [pieces, dif_neg hs]
  split
  next => rfl
  next hfound =>
    exact absurd (h.symm.trans hfound) (by simp)

theorem occurrences_nil (allowed : Nat) : occurrences allowed [] = [] := by
  rw [occurrences, pieces_nil, List.filterMap_nil]

theorem occurrences_of_none (h : tagAt? allowed s = none) :
    occurrences allowed s = occurrences allowed (cutLine s).2 := by
  by_cases hs : s = []
  · subst hs
    rfl
  · rw [occurrences, pieces_of_none hs h]
    rfl

theorem occurrences_of_tagAt? (h : tagAt? allowed s = some found) :
    occurrences allowed s = found.occurrence :: occurrences allowed found.next := by
  rw [occurrences, pieces_of_tagAt? h, Found.next]
  split <;> rfl

/-- What reading goes on with is the end of what it has read. -/
theorem next_suffix (h : tagAt? allowed s = some found) : found.next <:+ s := by
  have hrest : found.rest <:+ s := ⟨found.written, (eq_of_tagAt? h).symm⟩
  rw [Found.next]
  split
  · exact hrest
  · exact List.IsSuffix.trans ⟨_, cutLine_append found.rest⟩ hrest

theorem length_next_lt (h : tagAt? allowed s = some found) : found.next.length < s.length := by
  have hrest := length_rest_lt h
  have hcut := length_cutLine_le found.rest
  rw [Found.next]
  split <;> omega

/-- What holds of the empty text, and of a text when it holds where reading goes on, holds
of every text. -/
@[elab_as_elim]
theorem reading_induction (allowed : Nat) {motive : List Char → Prop} (nil : motive [])
    (skip : ∀ s, s ≠ [] → tagAt? allowed s = none → motive (cutLine s).2 → motive s)
    (read : ∀ s found, tagAt? allowed s = some found → motive found.next → motive s)
    (s : List Char) : motive s := by
  induction hn : s.length using Nat.strong_induction_on generalizing s with
  | _ n ih =>
    subst hn
    by_cases hs : s = []
    · exact hs ▸ nil
    · cases h : tagAt? allowed s with
      | none => exact skip s hs h (ih _ (length_cutLine_lt hs) _ rfl)
      | some found => exact read s found h (ih _ (length_next_lt h) _ rfl)

/-- Every occurrence of a text is read at the beginning of some end of it. -/
theorem exists_tagAt?_of_mem {o : Occurrence} (h : o ∈ occurrences allowed s) :
    ∃ t found, t <:+ s ∧ tagAt? allowed t = some found ∧ found.occurrence = o := by
  induction s using reading_induction allowed with
  | nil => exact absurd h (by simp [occurrences_nil])
  | skip s hs hnone ih =>
    rw [occurrences_of_none hnone] at h
    obtain ⟨t, found, ht, hf, ho⟩ := ih h
    exact ⟨t, found, ht.trans ⟨_, cutLine_append s⟩, hf, ho⟩
  | read s found hfound ih =>
    rw [occurrences_of_tagAt? hfound] at h
    rcases List.mem_cons.1 h with rfl | h
    · exact ⟨s, found, List.suffix_refl s, hfound, rfl⟩
    · obtain ⟨t, found', ht, hf, ho⟩ := ih h
      exact ⟨t, found', ht.trans (next_suffix hfound), hf, ho⟩

/-! ### Where strings come from -/

variable {inner : Braced} {context : Context}

theorem infix_of_reads (hi : Lossless inner) {d : Detail} (h : Reads inner context s d) :
    d.body <:+: s := by
  cases h with
  | @line gap s body q hg hn hs ho hb =>
    refine (infix_trim body).trans ?_
    rw [eq_of_lineDescription? hb]
    exact List.infix_append' gap body q
  | @braces gap s body q hg hn hs ho hb =>
    refine (infix_trim body).trans ?_
    rw [eq_of_inlineDescription? hb]
    exact List.infix_append' gap body q
  | @signature _ gap s body q hg hb =>
    rw [eq_of_signature? hb]
    exact List.infix_append' gap body q
  | @inline _ gap s body q hg hb =>
    rw [hi s body q hb]
    exact List.infix_append' gap body q

/-- The name and the specialization stand in the head of a tag. -/
theorem infix_headText (name : List Char) (special : Option (List Char)) :
    name <:+: headText name special ∧ ∀ l ∈ special, l <:+: headText name special := by
  refine ⟨⟨['@'], specializationText special, by simp [headText]⟩, ?_⟩
  rintro l rfl
  exact ⟨'@' :: (name ++ [':']), [], by simp [headText, specializationText]⟩

theorem infix_of_readsTag (hi : Lossless inner) {found : Found}
    (h : ReadsTag inner context s found) :
    ∀ t ∈ found.occurrence.strings, t.toList <:+: s := by
  have head {name r body : List Char} {special : Option (List Char)} {kind : BodyKind}
      (hbody : body <:+: r) :
      ∀ t ∈ (Occurrence.mk (String.ofList name) (special.map String.ofList) kind
        (String.ofList body)).strings, t.toList <:+: headText name special ++ r := by
    obtain ⟨hname, hspecial⟩ := infix_headText name special
    have hfront : headText name special <:+: headText name special ++ r :=
      (List.prefix_append _ r).isInfix
    intro t ht
    simp only [strings, List.mem_cons, List.mem_append, Option.mem_toList, List.not_mem_nil,
      or_false, Option.map_eq_some_iff] at ht
    rcases ht with rfl | ⟨l, hl, rfl⟩ | rfl
    · simpa using hname.trans hfront
    · simpa using (hspecial l hl).trans hfront
    · simpa using hbody.trans (List.suffix_append _ r).isInfix
  cases h with
  | bare => exact head List.nil_infix
  | detail hh hn hd => exact head (infix_of_reads hi hd)

/-- What an occurrence says stands in the text. -/
theorem infix_of_mem_scan {asked : Int} {text : String} {o : Occurrence}
    (h : o ∈ scan asked text) : ∀ t ∈ o.strings, t.toList <:+: text.toList := by
  rw [scan_eq] at h
  obtain ⟨t, found, hsuffix, hfound, rfl⟩ := exists_tagAt?_of_mem h
  intro u hu
  have hread := readsTag_of_tag? hfound
  exact (infix_of_readsTag (lossless_braced _) hread u hu).trans hsuffix.isInfix

/-! ### Reading again -/

theorem PlainBlanks.suffix {s t : List Char} (hs : PlainBlanks s) (ht : t <:+ s) :
    PlainBlanks t := fun c hc => hs c (ht.subset hc)

theorem occurrences_wellFormed {s : List Char} (hs : PlainBlanks s) (allowed : Nat) :
    ∀ o ∈ occurrences allowed s, o.WellFormed allowed := by
  intro o ho
  obtain ⟨t, found, ht, hfound, rfl⟩ := exists_tagAt?_of_mem ho
  exact wellFormed_of_tagAt? (hs.suffix ht) hfound

/-- The occurrences of a text, written out one below the other, are the occurrences of what
has been written. -/
theorem scan_writtenAll_scan {asked : Int} {text : String} (h : PlainBlanks text.toList) :
    scan asked (String.ofList (writtenAll (scan asked text))) = scan asked text := by
  have hform := occurrences_wellFormed h (Nesting.allowance asked)
  rw [scan_eq asked text, scan_eq, String.toList_ofList]
  exact occurrences_writtenAll hform

/-- A description is trimmed, a signature keeps the tag line in it, what stands behind a body
in braces is left out, and of two levels of braces the bound allows one. -/
theorem rescan_untidy_text :
    scan 1 (String.ofList (writtenAll (scan 1
      "?\n@a:b  x, \n y \t\n\n@c (\n@d,\t) e\n@f\t\x7b@g h \x7di\n@j \x7b@k\x7b@l\x7d\x7d"))) =
      [⟨"a", some "b", .description, "x, \n y"⟩, ⟨"c", none, .signature, "(\n@d,\t)"⟩,
        ⟨"f", none, .inline, "\x7b@g h \x7d"⟩, ⟨"j", none, .bare, ""⟩] := by
  refine (scan_writtenAll_scan ?_).trans ?_
  · simp [PlainBlanks, isBlank]
  · decide +kernel

end Occurrence

end DocComment
