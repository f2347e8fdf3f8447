import DocComment.Proofs.Occurrence.RoundTrip
import DocComment.Proofs.Text.Lines
import Mathlib.Data.List.DropRight

/-! What a reader finds is of its form. A reader takes the form that it is for off the front
of a text; `Reads` and `ReadsTag` tell all that can be read behind a name and where a tag
begins, and a tag in braces has the form of its levels by induction on the levels. -/

namespace DocComment.Occurrence

open Text

theorem head?_eq_of_begins {s t : List Char} (h : t <+: s) (ht : t ≠ []) : s.head? = t.head? := by
  obtain ⟨r, rfl⟩ := h
  exact List.head?_append_of_ne_nil t ht

/-! ### Names -/

theorem isNamePart_of_isNameStart {c : Char} (h : isNameStart c = true) : isNamePart c = true := by
  simp only [isNameStart, Bool.or_eq_true, beq_iff_eq] at h
  rcases h with h | rfl
  · simp [isNamePart, h]
  · rfl

theorem isNamePart_of_mem {name : List Char} (h : isName (String.ofList name) = true) :
    ∀ c ∈ name, isNamePart c = true := by
  cases name with
  | nil => simp
  | cons c l =>
    simp only [isName, String.toList_ofList, Bool.and_eq_true, List.all_eq_true] at h
    intro d hd
    rcases List.mem_cons.1 hd with rfl | hd
    · exact isNamePart_of_isNameStart h.1
    · exact h.2 d hd

theorem name?_sound {s name r : List Char} (h : name? s = some (name, r)) :
    isName (String.ofList name) = true ∧ ∀ c ∈ r.head?, isNamePart c = false := by
  cases s with
  | nil => exact absurd h (by simp [name?])
  | cons c s =>
    simp only [name?] at h
    split at h
    next hc =>
      simp only [Option.some.injEq, Prod.mk.injEq] at h
      obtain ⟨rfl, rfl⟩ := h
      refine ⟨?_, head?_dropWhile_eq_false s⟩
      simp only [isName, String.toList_ofList, Bool.and_eq_true, List.all_eq_true]
      exact ⟨hc, fun d hd => List.mem_takeWhile_imp hd⟩
    next => exact absurd h (by simp)

theorem splitSpecialization_sound (s : List Char) :
    (splitSpecialization s).1 ≠ some [] ∧
      ∀ l ∈ (splitSpecialization s).1, ∀ c ∈ l, isSpecializationPart c = true := by
  unfold splitSpecialization
  split
  next r =>
    split
    next => simp
    next l hl =>
      refine ⟨by simpa using hl, fun m hm c hc => ?_⟩
      obtain rfl : r.takeWhile isSpecializationPart = m := by simpa using hm
      exact List.mem_takeWhile_imp hc
  next => simp

/-! ### Descriptions and signatures -/

theorem opensDescription_cases {s : List Char} (h : opensDescription s = true) :
    ∃ c r, s = c :: r ∧ c ≠ '(' ∧ c ≠ '\x7b' ∧ c ≠ '\n' := by
  cases s with
  | nil => exact absurd h (by simp [opensDescription])
  | cons c r => exact ⟨c, r, rfl, by simpa [opensDescription, and_assoc] using h⟩

/-- A break inside a description has a line behind it that is neither empty nor a tag, and
what ends a description is the end of the text or a break. -/
theorem lineDescription?_sound {s body q : List Char} (h : lineDescription? s = some (body, q)) :
    ¬ ['\n', '\n'] <:+: body ∧ ¬ ['\n', '@'] <:+: body ∧ (q = [] ∨ q.head? = some '\n') := by
  induction s generalizing body with
  | nil =>
    simp only [lineDescription?, Option.some.injEq, Prod.mk.injEq] at h
    obtain ⟨rfl, rfl⟩ := h
    simp
  | cons c r ih =>
    have later (h : ((lineDescription? r).map fun p => (c :: p.1, p.2)) = some (body, q)) :
        ∃ b, body = c :: b ∧ lineDescription? r = some (b, q) := by
      obtain ⟨⟨b, q'⟩, hb, he⟩ := Option.map_eq_some_iff.1 h
      simp only [Prod.mk.injEq] at he
      obtain ⟨rfl, rfl⟩ := he
      exact ⟨b, rfl, hb⟩
    simp only [lineDescription?] at h
    by_cases hc : c = '\n'
    · rw [if_pos hc] at h
      split_ifs at h with hend hnl
      · simp only [Option.some.injEq, Prod.mk.injEq] at h
        obtain ⟨rfl, rfl⟩ := h
        simp [hc]
      · obtain ⟨b, rfl, hb⟩ := later h
        obtain ⟨hpair, htag, hq⟩ := ih hb
        -- the line behind the break is the one that reading has gone on with
        have hhead {d : Char} (hd : b.head? = some d) : r.head? = some d := by
          rw [eq_of_lineDescription? hb, List.head?_append, hd, Option.some_or]
        have hat : r.head? ≠ some '@' := by
          intro hr
          obtain ⟨t, rfl⟩ := List.head?_eq_some_iff.1 hr
          exact hend rfl
        rw [pair_infix_cons, pair_infix_cons]
        exact ⟨fun hi => hi.elim (fun hi => hnl (hhead hi.2)) hpair,
          fun hi => hi.elim (fun hi => hat (hhead hi.2)) htag, hq⟩
    · rw [if_neg hc] at h
      obtain ⟨b, rfl, hb⟩ := later h
      obtain ⟨hpair, htag, hq⟩ := ih hb
      rw [pair_infix_cons, pair_infix_cons]
      exact ⟨fun hi => hi.elim (fun hi => hc hi.1.symm) hpair,
        fun hi => hi.elim (fun hi => hc hi.1.symm) htag, hq⟩

theorem inlineDescription?_sound {s body q : List Char}
    (h : inlineDescription? s = some (body, q)) :
    body ≠ [] ∧ ∀ c ∈ body, c ≠ '\x7d' ∧ c ≠ '\n' := by
  simp only [inlineDescription?] at h
  split at h
  next => exact absurd h (by simp)
  next hne =>
    simp only [Option.some.injEq, Prod.mk.injEq] at h
    obtain ⟨rfl, rfl⟩ := h
    refine ⟨by simpa using hne, fun c hc => ?_⟩
    simpa using List.mem_takeWhile_imp hc
  next => exact absurd h (by simp)

/-- What opens a description in braces is what was found to open one. -/
theorem isInlineDescription_of_read {s body q : List Char} (hs : ∀ c ∈ s.head?, isGap c = false)
    (ho : opensDescription s = true) (h : inlineDescription? s = some (body, q)) :
    IsInlineDescription body := by
  obtain ⟨hfilled, hinside⟩ := inlineDescription?_sound h
  refine ⟨hfilled, fun c hc => ?_, hinside⟩
  have hhead : s.head? = some c :=
    (head?_eq_of_begins ⟨q, (eq_of_inlineDescription? h).symm⟩ hfilled).trans hc
  obtain ⟨d, r, rfl, hp, hb, -⟩ := opensDescription_cases ho
  obtain rfl : d = c := by simpa using hhead
  exact ⟨hs d rfl, hp, hb⟩

theorem signature?_sound {s body q : List Char} (h : signature? s = some (body, q)) :
    IsSignature body := by
  have inside {t : List Char} : ∀ c ∈ t.takeWhile fun c => c != ',' && c != ')',
      c ≠ ',' ∧ c ≠ ')' := fun c hc => by simpa using List.mem_takeWhile_imp hc
  unfold signature? at h
  split at h
  · dsimp only at h
    split at h
    next => exact absurd h (by simp)
    next hne =>
      simp only [Option.some.injEq, Prod.mk.injEq] at h
      obtain ⟨rfl, rfl⟩ := h
      exact .plain (by simpa using hne) inside
    next hne =>
      split at h
      · simp only [Option.some.injEq, Prod.mk.injEq] at h
        obtain ⟨rfl, rfl⟩ := h
        exact .comma (by simpa using hne) inside fun c hc => List.mem_takeWhile_imp hc
      · exact absurd h (by simp)
    next => exact absurd h (by simp)
  · exact absurd h (by simp)

/-- A text that begins with no character of a class is trimmed only at its end. -/
theorem trim_of_head? {p : Char → Bool} {s : List Char} (hne : s ≠ [])
    (hs : ∀ c ∈ s.head?, p c = false) :
    trim p s <+: s ∧ trim p s ≠ [] ∧ ∀ c ∈ (trim p s).getLast?, p c = false := by
  cases s with
  | nil => exact absurd rfl hne
  | cons c r =>
    have hc : p c = false := hs c rfl
    have ht : trim p (c :: r) = (c :: r).rdropWhile p := by
      simp [trim, List.rdropWhile, hc]
    have hfilled : (c :: r).rdropWhile p ≠ [] := by
      rw [ne_eq, List.rdropWhile_eq_nil_iff]
      exact fun hall => absurd (hall c (by simp)) (by simp [hc])
    rw [ht]
    refine ⟨List.rdropWhile_prefix p (c :: r), hfilled, fun d hd => ?_⟩
    have hlast := List.rdropWhile_last_not p (c :: r) hfilled
    rw [List.getLast?_eq_getLast_of_ne_nil hfilled] at hd
    obtain rfl := Option.some.inj hd
    simpa using hlast

/-- A description stays one without the white space behind it, when none stands in front. -/
theorem isDescription_strip {s body q : List Char} (hs : ∀ c ∈ s.head?, isBlank c = false)
    (ho : opensDescription s = true) (h : lineDescription? s = some (body, q)) :
    IsDescription (strip body) := by
  obtain ⟨hpair, htag, -⟩ := lineDescription?_sound h
  obtain ⟨c, r, rfl, hp, hb, hn⟩ := opensDescription_cases ho
  have hbody : ∃ m, body = c :: m := by
    simp only [lineDescription?, if_neg hn] at h
    obtain ⟨⟨m, q'⟩, -, he⟩ := Option.map_eq_some_iff.1 h
    simp only [Prod.mk.injEq] at he
    exact ⟨m, he.1.symm⟩
  obtain ⟨m, rfl⟩ := hbody
  obtain ⟨hpre, hfilled, hlast⟩ := trim_of_head? (p := isBlank) (s := c :: m) (by simp) hs
  refine ⟨hfilled, fun d hd => ?_, hlast, fun hi => ?_, fun hi => ?_⟩
  · obtain rfl : c = d := by simpa using (head?_eq_of_begins hpre hfilled).trans hd
    exact ⟨hs c rfl, hp, hb⟩
  · exact hpair (hi.trans hpre.isInfix)
  · exact htag (hi.trans hpre.isInfix)

/-! ### Behind a name -/

/-- All that can be read behind a name. -/
inductive Reads (inner : Braced) : Context → List Char → Detail → Prop where
  | line {gap s body q : List Char} (hg : ∀ c ∈ gap, isGap c = true) (hn : gap ≠ [])
      (hs : ∀ c ∈ s.head?, isGap c = false) (ho : opensDescription s = true)
      (h : lineDescription? s = some (body, q)) :
    Reads inner .line (gap ++ s) ⟨.description, strip body,
      gap ++ (body ++ q.takeWhile (· = '\n')), q.dropWhile (· = '\n')⟩
  | braces {gap s body q : List Char} (hg : ∀ c ∈ gap, isGap c = true) (hn : gap ≠ [])
      (hs : ∀ c ∈ s.head?, isGap c = false) (ho : opensDescription s = true)
      (h : inlineDescription? s = some (body, q)) :
    Reads inner .braces (gap ++ s) ⟨.description, strip body, gap ++ body, q⟩
  | signature {context : Context} {gap s body q : List Char} (hg : ∀ c ∈ gap, isGap c = true)
      (h : signature? s = some (body, q)) :
    Reads inner context (gap ++ s) ⟨.signature, body, gap ++ body, q⟩
  | inline {context : Context} {gap s body q : List Char} (hg : ∀ c ∈ gap, isGap c = true)
      (h : (inner s).1 = some (body, q)) :
    Reads inner context (gap ++ '\x7b' :: s) ⟨.inline, body, gap ++ body, q⟩

variable {inner : Braced} {context : Context} {s : List Char}

theorem reads_of_detail {d : Detail} (h : (detail inner context s).1 = some d) :
    Reads inner context s d := by
  have hgap : ∀ c ∈ s.takeWhile isGap, isGap c = true := fun c hc => List.mem_takeWhile_imp hc
  have hstop : ∀ c ∈ (s.dropWhile isGap).head?, isGap c = false := head?_dropWhile_eq_false s
  have hs := List.takeWhile_append_dropWhile (p := isGap) (l := s)
  unfold detail at h
  dsimp only at h
  split at h
  next d' hd =>
    simp only [Option.some.injEq] at h
    subst h
    unfold description? at hd
    split at hd
    next => exact absurd hd (by simp)
    next hopen =>
      simp only [Bool.or_eq_true, Bool.not_eq_true', not_or, Bool.not_eq_true, Bool.not_eq_false,
        List.isEmpty_eq_false_iff] at hopen
      cases context with
      | line =>
        obtain ⟨⟨body, q⟩, hb, rfl⟩ := Option.map_eq_some_iff.1 hd
        have hread : Reads inner .line _ _ := .line hgap hopen.1 hstop hopen.2 hb
        rwa [hs] at hread
      | braces =>
        obtain ⟨⟨body, q⟩, hb, rfl⟩ := Option.map_eq_some_iff.1 hd
        have hread : Reads inner .braces _ _ := .braces hgap hopen.1 hstop hopen.2 hb
        rwa [hs] at hread
  next =>
    split at h
    next hq =>
      simp only [Option.some.injEq] at h
      subst h
      have hread : Reads inner context _ _ := .signature hgap hq
      rwa [hs] at hread
    next =>
      split at h
      next q hr =>
        obtain ⟨⟨body, rest⟩, hf, rfl⟩ := Option.map_eq_some_iff.1 h
        have hread : Reads inner context _ _ := .inline hgap hf
        rwa [← hr, hs] at hread
      next => exact absurd h (by simp)

/-- All that can be read where a tag begins: a head, and a bare tag only where nothing can
be read behind it. -/
inductive ReadsTag (inner : Braced) (context : Context) : List Char → Found → Prop where
  | bare {name r : List Char} {special : Option (List Char)} {stopped : Bool}
      (hh : IsHead name special)
      (hn : ∀ c ∈ (specializationText special ++ r).head?, isNamePart c = false)
      (hd : (detail inner context r).1 = none) :
    ReadsTag inner context (headText name special ++ r)
      ⟨⟨String.ofList name, special.map String.ofList, .bare, String.ofList []⟩,
        headText name special, r, stopped⟩
  | detail {name r : List Char} {special : Option (List Char)} {d : Detail} {stopped : Bool}
      (hh : IsHead name special)
      (hn : ∀ c ∈ (specializationText special ++ r).head?, isNamePart c = false)
      (hd : Reads inner context r d) :
    ReadsTag inner context (headText name special ++ r)
      ⟨⟨String.ofList name, special.map String.ofList, d.kind, String.ofList d.body⟩,
        headText name special ++ d.written, d.rest, stopped⟩

theorem readsTag_of_tag? {found : Found} (h : tag? inner context s = some found) :
    ReadsTag inner context s found := by
  unfold tag? at h
  split at h
  next s =>
    obtain ⟨⟨name, r⟩, hname, rfl⟩ := Option.map_eq_some_iff.1 h
    obtain ⟨hn, hstop⟩ := name?_sound hname
    obtain ⟨hfilled, hpart⟩ := splitSpecialization_sound r
    have hr := splitSpecialization_append r
    have hs : '@' :: s = headText name (splitSpecialization r).1 ++ (splitSpecialization r).2 := by
      simp [eq_of_name? hname, headText, hr]
    have hend : ∀ c ∈ (specializationText (splitSpecialization r).1 ++
        (splitSpecialization r).2).head?, isNamePart c = false := by rwa [hr]
    have hh : IsHead name (splitSpecialization r).1 := ⟨hn, hfilled, hpart⟩
    rw [hs]
    dsimp only
    split
    next d stopped hd =>
      exact .detail hh hend (reads_of_detail (congrArg Prod.fst hd))
    next stopped hd =>
      exact .bare hh hend (congrArg Prod.fst hd)
  next => exact absurd h (by simp)

/-! ### Bodies in braces -/

/-- A tag in braces has the form of the levels that are allowed. -/
theorem isInline_of_braced {n : Nat} {s body q : List Char}
    (h : (braced n s).1 = some (body, q)) : IsInline n body := by
  induction n generalizing s body q with
  | zero => exact absurd h (by simp [braced])
  | succ n ih =>
    unfold braced at h
    split at h
    next => exact absurd h (by simp)
    next found hfound =>
      split at h
      · simp only [Option.some.injEq, Prod.mk.injEq] at h
        obtain ⟨rfl, rfl⟩ := h
        cases readsTag_of_tag? hfound with
        | bare hh hn hd => exact .bare hh
        | detail hh hn hd =>
          cases hd with
          | braces hg hgap hs ho hb =>
            have hform := isInlineDescription_of_read hs ho hb
            simpa only [List.append_assoc] using IsInline.description hh hg hgap hform
          | signature hg hb =>
            simpa only [List.append_assoc] using IsInline.signature hh hg (signature?_sound hb)
          | inline hg hb =>
            simpa only [List.append_assoc] using IsInline.inline hh hg (ih hb)
      · exact absurd h (by simp)

/-! ### Lines -/

variable {allowed : Nat} {found : Found}

theorem toList_specialization (special : Option (List Char)) :
    (special.map String.ofList).map String.toList = special := by
  cases special <;> simp

theorem isHead_of_tagAt? (h : tagAt? allowed s = some found) :
    IsHead found.occurrence.name.toList (found.occurrence.specialization.map String.toList) := by
  cases readsTag_of_tag? h with
  | bare hh => simpa only [String.toList_ofList, toList_specialization] using hh
  | detail hh => simpa only [String.toList_ofList, toList_specialization] using hh

/-- Every body has its form, whatever the text; only a description may lose it where white
space is taken off that is neither a space nor a tab nor a break. -/
theorem isBody_of_tagAt? (h : tagAt? allowed s = some found)
    (hk : found.occurrence.kind ≠ .description) :
    IsBody allowed found.occurrence.kind found.occurrence.body.toList := by
  cases readsTag_of_tag? h with
  | bare => exact String.toList_ofList
  | detail hh hn hd =>
    simp only [String.toList_ofList]
    cases hd with
    | line => exact absurd rfl hk
    | signature hg hb => exact signature?_sound hb
    | inline hg hb => exact isInline_of_braced hb

theorem isDescription_of_tagAt? (hs : PlainBlanks s) (h : tagAt? allowed s = some found)
    (hk : found.occurrence.kind = .description) :
    IsDescription found.occurrence.body.toList := by
  cases readsTag_of_tag? h with
  | bare => exact absurd hk (by simp)
  | detail hh hn hd =>
    simp only [String.toList_ofList]
    cases hd with
    | signature => exact absurd hk (by simp)
    | inline => exact absurd hk (by simp)
    | @line gap t body q hg hgap ht ho hb =>
      refine isDescription_strip (fun c hc => ?_) ho hb
      obtain ⟨d, r, rfl, -, -, hbreak⟩ := opensDescription_cases ho
      obtain rfl : d = c := by simpa using hc
      by_contra hblank
      -- the gap has been skipped, and a break opens no description
      have hgapless := ht d rfl
      rcases hs d (by simp) (by simpa using hblank) with rfl | rfl | rfl
      · exact absurd hgapless (by decide)
      · exact absurd hgapless (by decide)
      · exact hbreak rfl

theorem wellFormed_of_tagAt? (hs : PlainBlanks s) (h : tagAt? allowed s = some found) :
    found.occurrence.WellFormed allowed := by
  refine ⟨isHead_of_tagAt? h, ?_⟩
  by_cases hk : found.occurrence.kind = .description
  · have hb := isDescription_of_tagAt? hs h hk
    rw [hk]
    exact hb
  · exact isBody_of_tagAt? h hk

end DocComment.Occurrence
