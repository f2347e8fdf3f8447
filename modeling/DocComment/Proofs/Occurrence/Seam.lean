import DocComment.Proofs.Occurrence.Forms
import DocComment.Proofs.Occurrence.Pieces

/-! Occurrences do not reach over a line that begins with `@`. Where a break and such a line
stand behind a text, each reader finds what it finds in the text alone and leaves what it
leaves there, followed by what stands behind. A signature alone runs over lines whatever they
begin with, so a parenthesis must not open before the break and close behind it. -/

namespace DocComment

/-- What is read behind a name when a break and `b` stand behind the text: a description that
has run to the end of its text takes the break along. -/
def Detail.before (context : Context) (b : List Char) (d : Detail) : Detail :=
  if context = .line ∧ d.kind = .description ∧ d.rest = [] then
    { d with written := d.written ++ ['\n'], rest := b }
  else { d with rest := d.rest ++ '\n' :: b }

/-- The same for a tag. -/
def Found.before (context : Context) (b : List Char) (found : Found) : Found :=
  if context = .line ∧ found.occurrence.kind = .description ∧ found.rest = [] then
    { found with written := found.written ++ ['\n'], rest := b }
  else { found with rest := found.rest ++ '\n' :: b }

namespace Occurrence

open Text

/-- No parenthesis opens in a text and closes in what stands behind it. -/
def Apart (s b : List Char) : Prop := '(' ∉ s ∨ ')' ∉ b

theorem Apart.suffix {s t b : List Char} (h : Apart s b) (ht : t <:+ s) : Apart t b :=
  h.imp_left fun hs hm => hs (ht.subset hm)

variable {s b : List Char}

/-! ### Words and bodies -/

section Run

variable {p : Char → Bool}

theorem takeWhile_append_break (hp : p '\n' = false) (s b : List Char) :
    (s ++ '\n' :: b).takeWhile p = s.takeWhile p := by
  induction s with
  | nil => simp [hp]
  | cons c s ih => by_cases hc : p c = true <;> simp [hc, ih]

theorem dropWhile_append_break (hp : p '\n' = false) (s b : List Char) :
    (s ++ '\n' :: b).dropWhile p = s.dropWhile p ++ '\n' :: b := by
  induction s with
  | nil => simp [hp]
  | cons c s ih => by_cases hc : p c = true <;> simp [hc, ih]

end Run

theorem name?_append_break (s b : List Char) :
    name? (s ++ '\n' :: b) = (name? s).map fun (n, r) => (n, r ++ '\n' :: b) := by
  cases s with
  | nil => rfl
  | cons c s =>
    have hp : isNamePart '\n' = false := by decide
    by_cases hc : isNameStart c = true
    · simp [name?, hc, takeWhile_append_break hp, dropWhile_append_break hp]
    · simp [name?, hc]

theorem splitSpecialization_append_break (s b : List Char) :
    splitSpecialization (s ++ '\n' :: b) =
      ((splitSpecialization s).1, (splitSpecialization s).2 ++ '\n' :: b) := by
  have hp : isSpecializationPart '\n' = false := by decide
  cases s with
  | nil => rfl
  | cons c s =>
    by_cases hc : c = ':'
    · subst hc
      simp only [List.cons_append, splitSpecialization, takeWhile_append_break hp,
        dropWhile_append_break hp]
      split <;> rfl
    · simp [splitSpecialization, hc]

theorem opensDescription_append_break (s b : List Char) :
    opensDescription (s ++ '\n' :: b) = opensDescription s := by
  cases s <;> rfl

theorem inlineDescription?_append_break (s b : List Char) :
    inlineDescription? (s ++ '\n' :: b) =
      (inlineDescription? s).map fun (body, q) => (body, q ++ '\n' :: b) := by
  have htake := takeWhile_append_break (p := fun c => c != '\x7d' && c != '\n') rfl s b
  have hdrop := dropWhile_append_break (p := fun c => c != '\x7d' && c != '\n') rfl s b
  simp only [inlineDescription?, htake, hdrop]
  cases s.takeWhile fun c => c != '\x7d' && c != '\n' with
  | nil => rfl
  | cons c body =>
    cases s.dropWhile fun c => c != '\x7d' && c != '\n' with
    | nil => rfl
    | cons d q => by_cases hd : d = '\x7d' <;> simp [hd]

theorem IsSignature.getLast? {s : List Char} (hs : IsSignature s) : s.getLast? = some ')' := by
  obtain ⟨x, rfl, -, -⟩ := hs.exists_wrap
  rw [← List.cons_append, List.getLast?_concat]

/-- A signature in the text is read as before. One that reached over the end of the text would
close a parenthesis behind it that is opened in the text. -/
theorem signature?_append_break (h : Apart s b) :
    signature? (s ++ '\n' :: b) =
      (signature? s).map fun (body, q) => (body, q ++ '\n' :: b) := by
  cases hs : signature? s with
  | some found =>
    obtain ⟨body, q⟩ := found
    rw [eq_of_signature? hs, List.append_assoc, (signature?_sound hs).signature?]
    rfl
  | none =>
    rw [Option.map_none, Option.eq_none_iff_forall_ne_some]
    rintro ⟨body, q⟩ hbody
    have hform := signature?_sound hbody
    have inText {t : List Char} (ht : s = body ++ t) : False := by
      rw [ht, hform.signature?] at hs
      exact absurd hs (by simp)
    rcases List.append_eq_append_iff.1 (eq_of_signature? hbody) with ⟨t, ht, hq⟩ | ⟨t, ht, -⟩
    · cases t with
      | nil => exact inText (t := []) (by simpa using ht.symm)
      | cons c t =>
        obtain ⟨rfl, rfl⟩ : c = '\n' ∧ b = t ++ q := by simpa [eq_comm] using hq
        have hclose : ')' ∈ t ++ q := by
          have hlast := hform.getLast?
          rw [ht, List.getLast?_append_of_ne_nil s (by simp)] at hlast
          have hmem := List.mem_of_getLast? hlast
          simp only [List.mem_cons] at hmem
          exact List.mem_append_left q (hmem.resolve_left (by decide))
        have hopen : '(' ∈ s := by
          have hhead := hform.head? []
          rw [List.append_nil, ht] at hhead
          cases s with
          | nil => exact absurd hhead (by simp)
          | cons d s => simp_all
        exact h.elim (fun h => h hopen) (fun h => h hclose)
    · exact inText ht

/-- Breaks that are skipped to the end of the text are skipped up to the line behind it. -/
theorem dropWhile_breaks_append (hb : b.head? = some '@') (s : List Char) :
    (s ++ '\n' :: b).dropWhile (· = '\n') =
      if s.dropWhile (· = '\n') = [] then b else s.dropWhile (· = '\n') ++ '\n' :: b := by
  induction s with
  | nil =>
    cases b with
    | nil => rfl
    | cons c b =>
      obtain rfl : c = '@' := by simpa using hb
      simp
  | cons c s ih =>
    by_cases hc : c = '\n'
    · simp [hc, ih]
    · simp [hc]

theorem takeWhile_breaks_append (hb : b.head? = some '@') (s : List Char) :
    (s ++ '\n' :: b).takeWhile (· = '\n') =
      if s.dropWhile (· = '\n') = [] then s.takeWhile (· = '\n') ++ ['\n']
      else s.takeWhile (· = '\n') := by
  induction s with
  | nil =>
    cases b with
    | nil => rfl
    | cons c b =>
      obtain rfl : c = '@' := by simpa using hb
      simp
  | cons c s ih =>
    by_cases hc : c = '\n'
    · simp only [hc, List.cons_append, List.takeWhile_cons_of_pos, List.dropWhile_cons_of_pos,
        decide_true, ih]
      split_ifs <;> rfl
    · simp [hc]

theorem endsDescription_append_break (hb : b.head? = some '@') (s : List Char) :
    endsDescription ((s ++ '\n' :: b).dropWhile (· = '\n')) =
      endsDescription (s.dropWhile (· = '\n')) := by
  rw [dropWhile_breaks_append hb]
  split_ifs with he
  · rw [he]
    cases b with
    | nil => rfl
    | cons c b => simpa [endsDescription] using hb
  · cases hs : s.dropWhile (· = '\n') with
    | nil => exact absurd hs he
    | cons c r => rfl

/-- A description ends with its text or goes on in it, as if the line behind were not there. -/
theorem lineDescription?_append_break (hb : b.head? = some '@') (s : List Char) :
    lineDescription? (s ++ '\n' :: b) =
      (lineDescription? s).map fun (body, q) => (body, q ++ '\n' :: b) := by
  induction s with
  | nil =>
    have hend : endsDescription (b.dropWhile (· = '\n')) = true :=
      endsDescription_append_break hb []
    simp only [List.nil_append, lineDescription?, hend, if_true, Option.map_some]
  | cons c s ih =>
    rw [List.cons_append, lineDescription?, lineDescription?, endsDescription_append_break hb, ih]
    by_cases hc : c = '\n'
    · by_cases he : endsDescription (s.dropWhile (· = '\n')) = true
      · simp [hc, he]
      · have hhead : (s ++ '\n' :: b).head? = some '\n' ↔ s.head? = some '\n' := by
          cases s with
          | nil => exact absurd rfl he
          | cons d s => simp
        rw [Bool.not_eq_true] at he
        simp only [hc, he, hhead, if_true, Bool.false_eq_true, if_false, Option.map_map]
        split_ifs
        · rfl
        · rw [Option.map_map]
          rfl
    · simp only [hc, if_false, Option.map_map]
      rfl

/-! ### Behind a name -/

variable {context : Context} {gap : List Char}

theorem description?_append_break (hb : b.head? = some '@') (context : Context)
    (gap s : List Char) :
    description? context gap (s ++ '\n' :: b) =
      (description? context gap s).map (Detail.before context b) := by
  unfold description?
  rw [opensDescription_append_break]
  split_ifs
  · rfl
  · cases context with
    | line =>
      simp only [lineDescription?_append_break hb, Option.map_map]
      congr 1
      funext ⟨body, q⟩
      simp only [Function.comp_apply, Detail.before, true_and, dropWhile_breaks_append hb,
        takeWhile_breaks_append hb]
      split_ifs with hq
      · simp
      · rfl
    | braces =>
      simp only [inlineDescription?_append_break, Option.map_map]
      congr 1

/-- A reader of what is behind an opening brace that leaves alone what stands behind the text. -/
def Carries (inner : Braced) (b : List Char) : Prop :=
  ∀ s, Apart s b → inner (s ++ '\n' :: b) =
    ((inner s).1.map fun (body, q) => (body, q ++ '\n' :: b), (inner s).2)

variable {inner : Braced}

theorem detail_append_break (hi : Carries inner b) (hb : b.head? = some '@') (context : Context)
    (h : Apart s b) :
    detail inner context (s ++ '\n' :: b) =
      ((detail inner context s).1.map (Detail.before context b), (detail inner context s).2) := by
  have hr : Apart (s.dropWhile isGap) b := h.suffix (List.dropWhile_suffix isGap)
  simp only [detail, takeWhile_append_break (p := isGap) rfl,
    dropWhile_append_break (p := isGap) rfl, description?_append_break hb,
    signature?_append_break hr]
  generalize s.takeWhile isGap = gap
  generalize s.dropWhile isGap = r at hr
  cases description? context gap r with
  | some d => rfl
  | none =>
    cases signature? r with
    | some found => simp [Detail.before]
    | none =>
      cases r with
      | nil => rfl
      | cons c q =>
        by_cases hc : c = '\x7b'
        · subst hc
          have hq := hi q (hr.suffix (List.suffix_cons _ q))
          simp only [Option.map_none, List.cons_append, hq]
          cases (inner q).1 with
          | none => rfl
          | some found => simp [Detail.before]
        · simp [hc]

theorem tag?_append_break (hi : Carries inner b) (hb : b.head? = some '@') (context : Context)
    (h : Apart s b) :
    tag? inner context (s ++ '\n' :: b) = (tag? inner context s).map (Found.before context b) := by
  cases s with
  | nil => rfl
  | cons c s =>
    by_cases hc : c = '@'
    · subst hc
      simp only [List.cons_append, tag?, name?_append_break, Option.map_map]
      cases hn : name? s with
      | none => rfl
      | some found =>
        obtain ⟨name, r⟩ := found
        have hr : (splitSpecialization r).2 <:+ '@' :: s :=
          (List.IsSuffix.trans ⟨_, splitSpecialization_append r⟩
            ⟨name, (eq_of_name? hn).symm⟩).trans (List.suffix_cons _ s)
        have hd := detail_append_break hi hb context (h.suffix hr)
        simp only [Option.map_some, Function.comp_apply, splitSpecialization_append_break, hd]
        rcases detail inner context (splitSpecialization r).2 with ⟨_ | d, stopped⟩
        · simp [Found.before]
        · simp only [Option.map_some, Detail.before, Found.before]
          split_ifs <;> simp
    · simp [tag?, hc]

/-! ### Braces and lines -/

/-- A brace that closes behind the text belongs to no brace in it. -/
theorem braced_append_break (hb : b.head? = some '@') (n : Nat) : Carries (braced n) b := by
  induction n with
  | zero => intro s _; rfl
  | succ n ih =>
    intro s h
    simp only [braced, tag?_append_break ih hb .braces h]
    cases tag? (braced n) .braces s with
    | none => rfl
    | some found =>
      have hbefore : found.before .braces b = { found with rest := found.rest ++ '\n' :: b } := by
        simp [Found.before]
      simp only [Option.map_some, hbefore]
      cases found.rest with
      | nil => rfl
      | cons c q => by_cases hc : c = '\x7d' <;> simp [hc]

theorem tagAt?_append_break (hb : b.head? = some '@') (allowed : Nat) (h : Apart s b) :
    tagAt? allowed (s ++ '\n' :: b) = (tagAt? allowed s).map (Found.before .line b) :=
  tag?_append_break (braced_append_break hb allowed) hb .line h

/-- Reading goes on in what is left of the text, or, when nothing is left, with the line
behind it. -/
theorem next_before (b : List Char) (found : Found) :
    (found.before .line b).next = found.next ++ '\n' :: b ∨
      found.next = [] ∧ (found.before .line b).next = b := by
  by_cases hk : found.occurrence.kind = .description
  · by_cases hr : found.rest = []
    · exact Or.inr (by simp [Found.next, Found.before, hk, hr])
    · exact Or.inl (by simp [Found.next, Found.before, hk, hr])
  · simpa [Found.next, Found.before, hk] using cutLine_append_break found.rest b

theorem occurrence_before (context : Context) (b : List Char) (found : Found) :
    (found.before context b).occurrence = found.occurrence := by
  unfold Found.before
  split_ifs <;> rfl

variable {allowed : Nat}

/-- The occurrences of a text come first, then those of the lines behind it. -/
theorem occurrences_append_break (hb : b.head? = some '@') (h : Apart s b) :
    occurrences allowed (s ++ '\n' :: b) = occurrences allowed s ++ occurrences allowed b := by
  -- where reading goes on, the text behind is joined as before or comes next
  have goOn {r r' : List Char}
      (ih : occurrences allowed (r ++ '\n' :: b) = occurrences allowed r ++ occurrences allowed b)
      (hr : r' = r ++ '\n' :: b ∨ r = [] ∧ r' = b) :
      occurrences allowed r' = occurrences allowed r ++ occurrences allowed b := by
    rcases hr with rfl | ⟨rfl, rfl⟩
    · exact ih
    · rw [occurrences_nil, List.nil_append]
  induction s using reading_induction allowed with
  | nil =>
    rw [occurrences_of_none (s := [] ++ '\n' :: b) rfl, occurrences_nil]
    rfl
  | skip s hs hnone ih =>
    have hskip : tagAt? allowed (s ++ '\n' :: b) = none := by
      rw [tagAt?_append_break hb allowed h, hnone, Option.map_none]
    rw [occurrences_of_none hskip, occurrences_of_none hnone]
    exact goOn (ih (h.suffix ⟨_, cutLine_append s⟩)) (cutLine_append_break s b)
  | read s found hfound ih =>
    have hread : tagAt? allowed (s ++ '\n' :: b) = some (found.before .line b) := by
      rw [tagAt?_append_break hb allowed h, hfound, Option.map_some]
    rw [occurrences_of_tagAt? hread, occurrences_of_tagAt? hfound, occurrence_before,
      List.cons_append, goOn (ih (h.suffix (next_suffix hfound))) (next_before b found)]

/-- Tag regions are read one by one: whatever the first ends with, a line that begins with
`@` begins the second. -/
theorem scan_append_break {asked : Int} {first second : String}
    (hs : second.toList.head? = some '@') (h : '(' ∉ first.toList ∨ ')' ∉ second.toList) :
    scan asked (first ++ "\n" ++ second) = scan asked first ++ scan asked second := by
  have hl : (first ++ "\n" ++ second).toList = first.toList ++ '\n' :: second.toList := by simp
  rw [scan_eq, scan_eq, scan_eq, hl]
  exact occurrences_append_break hs h

/-- The first region leaves a parenthesis, a description and a brace open. -/
theorem scan_append_break_unfinished :
    scan 1 ("@a (x\n@b c\n\nd\n@e \x7b@f" ++ "\n" ++ "@g h\n\n@i \x7b@j k\x7d") =
      [⟨"a", none, .bare, ""⟩, ⟨"b", none, .bare, ""⟩, ⟨"e", none, .bare, ""⟩] ++
        [⟨"g", none, .description, "h"⟩, ⟨"i", none, .inline, "\x7b@j k\x7d"⟩] := by
  refine (scan_append_break (by simp) (Or.inr (by simp))).trans ?_
  decide +kernel

/-- A parenthesis that opens in the first region and closes in the second makes one
occurrence of both. -/
example : scan 1 ("@a (x" ++ "\n" ++ "@b)") = [⟨"a", none, .signature, "(x\n@b)"⟩] := by
  decide +kernel

end Occurrence

end DocComment
