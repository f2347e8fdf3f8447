import DocComment.Occurrence.Scan
import DocComment.Occurrence.WellFormed
import DocComment.Proofs.Occurrence.Detail

/-! Occurrences that are well-formed are read back from their written form. A body in
braces is read by induction on its levels, and a list of occurrences one at a time: where
an occurrence ends, either the text ends or the next line begins with `@`, so the reader
stops there whatever kind of body it has read. -/

namespace DocComment.Occurrence

open Text

/-- A reader of what is behind an opening brace. -/
abbrev Braced : Type := List Char → Option (List Char × List Char) × Bool

/-- What may follow an occurrence on a line of its own. -/
def EndsOccurrence (r : List Char) : Prop := r = [] ∨ ∃ q, r = '\n' :: '@' :: q

variable {inner : Braced} {context : Context} {gap s r : List Char}

/-! ### Behind a name -/

theorem detail_bare (hs : ∀ c ∈ s.head?, isGap c = false ∧ c ≠ '(' ∧ c ≠ '\x7b') :
    detail inner context s = (none, false) := by
  have hgap : ∀ c ∈ s.head?, isGap c = false := fun c hc => (hs c hc).1
  have htake : s.takeWhile isGap = [] := takeWhile_append_stop (s := []) (by simp) hgap
  have hdrop : s.dropWhile isGap = s := dropWhile_append_stop (s := []) (by simp) hgap
  have hsig : signature? s = none := signature?_eq_none fun hc => (hs '(' hc).2.1 rfl
  simp only [detail, htake, hdrop, description?, hsig]
  cases s with
  | nil => rfl
  | cons c s =>
    have hc : c ≠ '\x7b' := (hs c rfl).2.2
    simp [hc]

/-- A body that opens with a bracket is no description. -/
theorem description?_eq_none (hs : opensDescription s = false) :
    description? context gap s = none := by
  simp [description?, hs]

theorem detail_signature (hg : ∀ c ∈ gap, isGap c = true) (hs : IsSignature s) :
    detail inner context (gap ++ (s ++ r)) = (some ⟨.signature, s, gap ++ s, r⟩, false) := by
  have hhead := hs.head? r
  have hstop : ∀ c ∈ (s ++ r).head?, isGap c = false := by
    rw [hhead]
    simp [isGap]
  have hopen : opensDescription (s ++ r) = false := by
    cases hs <;> rfl
  simp only [detail, takeWhile_append_stop hg hstop, dropWhile_append_stop hg hstop,
    description?_eq_none hopen, hs.signature?]

theorem detail_inline {t body rest : List Char} {stopped : Bool}
    (hg : ∀ c ∈ gap, isGap c = true) (hb : inner t = (some (body, rest), stopped)) :
    detail inner context (gap ++ '\x7b' :: t) =
      (some ⟨.inline, body, gap ++ body, rest⟩, stopped) := by
  have hstop : ∀ c ∈ ('\x7b' :: t).head?, isGap c = false := by simp [isGap]
  have hnone : description? context gap ('\x7b' :: t) = none := description?_eq_none rfl
  have hsig : signature? ('\x7b' :: t) = none := signature?_eq_none (by simp)
  simp only [detail, takeWhile_append_stop hg hstop, dropWhile_append_stop hg hstop,
    hnone, hsig, hb,
    Option.map_some]

theorem IsDescription.opens (hs : IsDescription s) (r : List Char) :
    opensDescription (s ++ r) = true ∧ ∀ c ∈ (s ++ r).head?, isGap c = false := by
  have hf := hs.first
  cases s with
  | nil => exact absurd rfl hs.filled
  | cons c s =>
    obtain ⟨hb, hp, hc⟩ := hf c rfl
    have hn : c ≠ '\n' := by
      rintro rfl
      exact absurd hb (by decide)
    have hg : isGap c = false := by
      by_contra hg
      rw [isBlank_of_isGap (Bool.not_eq_false _ ▸ hg)] at hb
      exact absurd hb (by decide)
    simp [opensDescription, hp, hc, hn, hg]

theorem IsInlineDescription.opens (hs : IsInlineDescription s) (r : List Char) :
    opensDescription (s ++ r) = true ∧ ∀ c ∈ (s ++ r).head?, isGap c = false := by
  have hf := hs.first
  have hi := hs.inside
  cases s with
  | nil => exact absurd rfl hs.filled
  | cons c s =>
    obtain ⟨hg, hp, hc⟩ := hf c rfl
    have hn := (hi c (by simp)).2
    simp [opensDescription, hp, hc, hn, hg]

theorem detail_description (hg : ∀ c ∈ gap, isGap c = true) (hn : gap ≠ [])
    (hs : IsDescription s) (hr : EndsOccurrence r) :
    detail inner .line (gap ++ (s ++ r)) =
      (some ⟨.description, s, gap ++ (s ++ r.takeWhile (· = '\n')),
        r.dropWhile (· = '\n')⟩, false) := by
  obtain ⟨hopen, hstop⟩ := hs.opens r
  have hempty : gap.isEmpty = false := by simpa using hn
  have hend : r = [] ∨ ∃ q, r = '\n' :: q ∧ endsDescription (q.dropWhile (· = '\n')) = true := by
    rcases hr with rfl | ⟨q, rfl⟩
    · exact Or.inl rfl
    · exact Or.inr ⟨_, rfl, rfl⟩
  simp [detail, takeWhile_append_stop hg hstop, dropWhile_append_stop hg hstop, description?,
    hempty, hopen, hs.lineDescription? hend, strip_eq (fun c hc => (hs.first c hc).1) hs.last]

theorem detail_inlineDescription (hg : ∀ c ∈ gap, isGap c = true) (hn : gap ≠ [])
    (hs : IsInlineDescription s) (r : List Char) :
    detail inner .braces (gap ++ (s ++ '\x7d' :: r)) =
      (some ⟨.description, strip s, gap ++ s, '\x7d' :: r⟩, false) := by
  obtain ⟨hopen, hstop⟩ := hs.opens ('\x7d' :: r)
  have hempty : gap.isEmpty = false := by simpa using hn
  simp [detail, takeWhile_append_stop hg hstop, dropWhile_append_stop hg hstop, description?,
    hempty, hopen, hs.inlineDescription?]

/-! ### Tags -/

theorem endsHead_gap (hg : ∀ c ∈ gap, isGap c = true) (hs : gap = [] → EndsHead s) :
    EndsHead (gap ++ s) := by
  cases gap with
  | nil => exact hs rfl
  | cons c gap =>
    intro d hd
    obtain rfl : c = d := by simpa using hd
    have hc := hg c (by simp)
    simp only [isGap, Bool.or_eq_true, beq_iff_eq] at hc
    rcases hc with rfl | rfl
    · decide
    · decide

theorem IsSignature.endsHead (hs : IsSignature s) (r : List Char) : EndsHead (s ++ r) := by
  intro c hc
  rw [hs.head?] at hc
  obtain rfl : '(' = c := by simpa using hc
  decide

theorem endsHead_cons {c : Char} (hc : isNamePart c = false ∧ c ≠ ':') (s : List Char) :
    EndsHead (c :: s) := by
  simpa [EndsHead] using hc

variable {name : List Char} {special : Option (List Char)}

theorem IsHead.name? (hh : IsHead name special) (hr : EndsHead r) :
    Occurrence.name? (name ++ (specializationText special ++ r)) =
      some (name, specializationText special ++ r) :=
  name?_append hh.name (head?_specializationText special hr)

theorem IsHead.splitSpecialization (hh : IsHead name special) (hr : EndsHead r) :
    Occurrence.splitSpecialization (specializationText special ++ r) = (special, r) :=
  splitSpecialization_specializationText hh.special_filled hh.special_part hr

theorem tag?_bare (hh : IsHead name special) (hr : EndsHead r)
    (hd : detail inner context r = (none, false)) :
    tag? inner context (headText name special ++ r) =
      some ⟨⟨String.ofList name, special.map String.ofList, .bare, String.ofList []⟩,
        headText name special, r, false⟩ := by
  simp only [headText, List.cons_append, List.append_assoc, tag?, hh.name? hr, Option.map_some,
    hh.splitSpecialization hr, hd]

theorem tag?_detail (hh : IsHead name special) (hr : EndsHead r) {d : Detail} {stopped : Bool}
    (hd : detail inner context r = (some d, stopped)) :
    tag? inner context (headText name special ++ r) =
      some ⟨⟨String.ofList name, special.map String.ofList, d.kind, String.ofList d.body⟩,
        headText name special ++ d.written, d.rest, stopped⟩ := by
  simp only [headText, List.cons_append, List.append_assoc, tag?, hh.name? hr, Option.map_some,
    hh.splitSpecialization hr, hd]

/-! ### Bodies in braces -/

/-- A tag that is read up to a closing brace is the body with its two braces. -/
theorem braced_of_tag? {n : Nat} {t r : List Char} {o : Occurrence}
    (h : tag? (braced n) .braces (t ++ '\x7d' :: r) = some ⟨o, t, '\x7d' :: r, false⟩) :
    braced (n + 1) (t ++ '\x7d' :: r) = (some ('\x7b' :: (t ++ ['\x7d']), r), false) := by
  simp only [braced, h]

theorem braced_bare {n : Nat} (hh : IsHead name special) (r : List Char) :
    braced (n + 1) (headText name special ++ '\x7d' :: r) =
      (some ('\x7b' :: (headText name special ++ ['\x7d']), r), false) := by
  have hd : detail (braced n) .braces ('\x7d' :: r) = (none, false) := detail_bare (by simp [isGap])
  exact braced_of_tag? (tag?_bare hh (endsHead_cons (by decide) r) hd)

theorem braced_detail {n : Nat} {kind : BodyKind} {body : List Char} (hh : IsHead name special)
    (hr : EndsHead (gap ++ (s ++ '\x7d' :: r)))
    (hd : detail (braced n) .braces (gap ++ (s ++ '\x7d' :: r)) =
      (some ⟨kind, body, gap ++ s, '\x7d' :: r⟩, false)) :
    braced (n + 1) (headText name special ++ (gap ++ (s ++ '\x7d' :: r))) =
      (some ('\x7b' :: (headText name special ++ (gap ++ (s ++ ['\x7d']))), r), false) := by
  have htag := tag?_detail hh hr hd
  rw [← List.append_assoc gap, ← List.append_assoc (headText name special)] at htag ⊢
  rw [braced_of_tag? htag]
  simp

/-- Whatever follows a body in braces, it is read up to its own closing brace. -/
theorem IsInline.braced {n : Nat} {s : List Char} (hs : IsInline n s) :
    ∃ t, s = '\x7b' :: t ∧ ∀ r, Occurrence.braced n (t ++ r) = (some (s, r), false) := by
  -- the rest stays open, since the inner body is read in front of the outer closing brace
  induction hs with
  | bare hh =>
    refine ⟨_, rfl, fun r => ?_⟩
    rw [List.append_assoc]
    exact braced_bare hh r
  | description hh hg hn hs =>
    refine ⟨_, rfl, fun r => ?_⟩
    simp only [List.append_assoc]
    exact braced_detail hh (endsHead_gap hg fun he => absurd he hn)
      (detail_inlineDescription hg hn hs r)
  | signature hh hg hs =>
    refine ⟨_, rfl, fun r => ?_⟩
    simp only [List.append_assoc]
    exact braced_detail hh (endsHead_gap hg fun _ => hs.endsHead _) (detail_signature hg hs)
  | inline hh hg hs ih =>
    refine ⟨_, rfl, fun r => ?_⟩
    obtain ⟨t, rfl, hread⟩ := ih
    simp only [List.append_assoc, List.cons_append]
    exact braced_detail (s := '\x7b' :: t) hh (endsHead_gap hg fun _ => endsHead_cons (by decide) _)
      (detail_inline hg (hread ('\x7d' :: r)))

/-! ### Lines -/

theorem EndsOccurrence.endsHead (hr : EndsOccurrence r) : EndsHead r := by
  rcases hr with rfl | ⟨q, rfl⟩
  · simp [EndsHead]
  · exact endsHead_cons (by decide) _

/-- What is left behind an occurrence: a description takes the breaks behind it along. -/
def leftover (kind : BodyKind) (r : List Char) : List Char :=
  if kind = .description then r.dropWhile (· = '\n') else r

variable {allowed : Nat} {o : Occurrence}

def writtenHead (o : Occurrence) : List Char :=
  headText o.name.toList (o.specialization.map String.toList)

theorem written_bare (hk : o.kind = .bare) : o.written = o.writtenHead := by
  simp [written, writtenHead, headText, hk]

theorem written_body (hk : o.kind ≠ .bare) :
    o.written = o.writtenHead ++ ([' '] ++ o.body.toList) := by
  simp [written, writtenHead, headText, hk]

theorem ofList_specialization (special : Option String) :
    (special.map String.toList).map String.ofList = special := by
  cases special <;> simp

theorem tagAt?_bare (ho : o.WellFormed allowed) (hk : o.kind = .bare) (hr : EndsOccurrence r) :
    tagAt? allowed (o.written ++ r) = some ⟨o, o.writtenHead, r, false⟩ := by
  have hd : detail (braced allowed) .line r = (none, false) := by
    apply detail_bare
    rcases hr with rfl | ⟨q, rfl⟩
    · simp
    · simp [isGap]
  have hb : String.ofList [] = o.body := by
    have hnil := ho.body
    rw [hk] at hnil
    rw [← (hnil : o.body.toList = []), String.ofList_toList]
  rw [written_bare hk, writtenHead, tagAt?, tag?_bare ho.head hr.endsHead hd,
    ofList_specialization, String.ofList_toList, ← hk, hb]

theorem tagAt?_detail (ho : o.WellFormed allowed) (hk : o.kind ≠ .bare) {w rest : List Char}
    (hd : detail (braced allowed) .line ([' '] ++ (o.body.toList ++ r)) =
      (some ⟨o.kind, o.body.toList, w, rest⟩, false)) :
    tagAt? allowed (o.written ++ r) = some ⟨o, o.writtenHead ++ w, rest, false⟩ := by
  have hend : EndsHead ([' '] ++ (o.body.toList ++ r)) :=
    endsHead_gap (by simp [isGap]) fun he => absurd he (by simp)
  rw [written_body hk, writtenHead, tagAt?, List.append_assoc, List.append_assoc,
    tag?_detail ho.head hend hd, ofList_specialization, String.ofList_toList,
    String.ofList_toList]

theorem tagAt?_written (ho : o.WellFormed allowed) (hr : EndsOccurrence r) :
    ∃ w, tagAt? allowed (o.written ++ r) = some ⟨o, w, leftover o.kind r, false⟩ := by
  have hg : ∀ c ∈ [' '], isGap c = true := by simp [isGap]
  have hb := ho.body
  cases hk : o.kind with
  | bare => exact ⟨_, tagAt?_bare ho hk hr⟩
  | description =>
    rw [hk] at hb
    have hd : detail (braced allowed) .line ([' '] ++ (o.body.toList ++ r)) =
        (some ⟨.description, o.body.toList, _, _⟩, false) := detail_description hg (by simp) hb hr
    rw [← hk] at hd
    exact ⟨_, tagAt?_detail ho (by simp [hk]) hd⟩
  | signature =>
    rw [hk] at hb
    have hd : detail (braced allowed) .line ([' '] ++ (o.body.toList ++ r)) =
        (some ⟨.signature, o.body.toList, _, r⟩, false) := detail_signature hg hb
    rw [← hk] at hd
    exact ⟨_, tagAt?_detail ho (by simp [hk]) hd⟩
  | inline =>
    rw [hk] at hb
    obtain ⟨t, ht, hread⟩ := hb.braced
    have hd : detail (braced allowed) .line ([' '] ++ '\x7b' :: (t ++ r)) =
        (some ⟨.inline, o.body.toList, _, r⟩, false) := detail_inline hg (hread r)
    rw [← hk, ← List.cons_append, ← ht] at hd
    exact ⟨_, tagAt?_detail ho (by simp [hk]) hd⟩

/-! ### Lists -/

theorem pieces_nil (allowed : Nat) : pieces allowed [] = [] := by
  rw [pieces, dif_pos rfl]

theorem pieces_of_tagAt? {found : Found} (h : tagAt? allowed s = some found) :
    pieces allowed s =
      .tag found :: if found.occurrence.kind = .description then pieces allowed found.rest
        else .other (cutLine found.rest).1 :: pieces allowed (cutLine found.rest).2 := by
  have hne : s ≠ [] := by
    rintro rfl
    exact absurd h (by simp [tagAt?, tag?])
  rw [pieces, dif_neg hne]
  split
  next hnone =>
    exact absurd (hnone.symm.trans h) (by simp)
  next found' hfound =>
    obtain rfl : found' = found := Option.some.inj (hfound.symm.trans h)
    split <;> rfl

/-- Behind an occurrence reading goes on with the next line. -/
theorem occurrences_written (ho : o.WellFormed allowed) (hr : EndsOccurrence r) :
    (pieces allowed (o.written ++ r)).filterMap Piece.occurrence? =
      o :: (pieces allowed (r.drop 1)).filterMap Piece.occurrence? := by
  obtain ⟨w, hw⟩ := tagAt?_written ho hr
  rw [pieces_of_tagAt? hw]
  dsimp only
  -- a description has taken the break along, behind any other body the line is cut off
  split
  next hk =>
    have hrest : leftover o.kind r = r.drop 1 := by
      rw [leftover, if_pos hk]
      rcases hr with rfl | ⟨q, rfl⟩
      · rfl
      · simp
    rw [hrest]
    rfl
  next hk =>
    have hrest : (cutLine (leftover o.kind r)).2 = r.drop 1 := by
      rw [leftover, if_neg hk]
      rcases hr with rfl | ⟨q, rfl⟩
      · rfl
      · simp [cutLine]
    rw [hrest]
    rfl

theorem writtenAll_cons (o : Occurrence) {os : List Occurrence} (h : os ≠ []) :
    writtenAll (o :: os) = o.written ++ '\n' :: writtenAll os := by
  cases os with
  | nil => exact absurd rfl h
  | cons p os => rfl

theorem writtenAll_eq_at {os : List Occurrence} (h : os ≠ []) : ∃ q, writtenAll os = '@' :: q := by
  cases os with
  | nil => exact absurd rfl h
  | cons o os =>
    by_cases hos : os = []
    · exact ⟨_, by rw [hos]; rfl⟩
    · exact ⟨_, writtenAll_cons o hos⟩

theorem occurrences_writtenAll {os : List Occurrence} (h : ∀ o ∈ os, o.WellFormed allowed) :
    (pieces allowed (writtenAll os)).filterMap Piece.occurrence? = os := by
  induction os with
  | nil => rw [writtenAll, pieces_nil, List.filterMap_nil]
  | cons o os ih =>
    have ho := h o (by simp)
    by_cases hos : os = []
    · subst hos
      have hone := occurrences_written ho (Or.inl rfl)
      rwa [List.append_nil, List.drop_nil, pieces_nil, List.filterMap_nil] at hone
    · obtain ⟨q, hq⟩ := writtenAll_eq_at hos
      have hmore := occurrences_written ho (Or.inr ⟨q, congrArg ('\n' :: ·) hq⟩)
      rw [writtenAll_cons o hos, hmore, List.drop_succ_cons, List.drop_zero,
        ih fun p hp => h p (by simp [hp])]

/-- Well-formed occurrences are read back from their lines, whatever stands next to what. -/
theorem scan_writtenAll {asked : Int} {os : List Occurrence}
    (h : ∀ o ∈ os, o.WellFormed (Nesting.allowance asked)) :
    scan asked (String.ofList (writtenAll os)) = os := by
  rw [scan, String.toList_ofList]
  exact occurrences_writtenAll h

/-- Each kind of body with a neighbour that it could be mistaken for. -/
theorem scan_mixed_bodies :
    scan 2 "@return int,\nnot @void\n@x:y-1 (\n@z,\t)\n@see \x7b@a:b\t\x7b@c d(\x7b\x7d\x7d\n@api" =
      [⟨"return", none, .description, "int,\nnot @void"⟩,
        ⟨"x", some "y-1", .signature, "(\n@z,\t)"⟩,
        ⟨"see", none, .inline, "\x7b@a:b\t\x7b@c d(\x7b\x7d\x7d"⟩, ⟨"api", none, .bare, ""⟩] := by
  have hdescription : IsDescription "int,\nnot @void".toList :=
    ⟨by simp, by simp [isBlank], by simp [isBlank], by decide +kernel, by decide +kernel⟩
  have hspace : ∀ c ∈ [' '], isGap c = true := by simp [isGap]
  have htab : ∀ c ∈ ['\t'], isGap c = true := by simp [isGap]
  have hsignature : IsSignature "(\n@z,\t)".toList :=
    .comma (by simp : ['\n', '@', 'z'] ≠ []) (by simp) htab
  have hlink : IsHead ['a'] (some ['b']) :=
    ⟨by decide, by simp, by simp [isSpecializationPart, isLetter]⟩
  have htext : IsInlineDescription ['d', '(', '\x7b'] := ⟨by simp, by simp [isGap], by simp⟩
  have hinline : IsInline 2 "\x7b@a:b\t\x7b@c d(\x7b\x7d\x7d".toList :=
    .inline hlink htab
      (.description (⟨by decide, by simp, by simp⟩ : IsHead ['c'] none) hspace (by simp) htext)
  refine (congrArg (scan 2) ?_).trans (scan_writtenAll fun o ho => ?_)
  · decide +kernel
  · simp only [List.mem_cons, List.not_mem_nil, or_false] at ho
    rcases ho with rfl | rfl | rfl | rfl
    · exact ⟨⟨by decide, by simp, by simp⟩, hdescription⟩
    · exact ⟨⟨by decide, by simp, by simp [isSpecializationPart, isLetter, isDigit]⟩, hsignature⟩
    · exact ⟨⟨by decide, by simp, by simp⟩, hinline⟩
    · exact ⟨⟨by decide, by simp, by simp⟩, rfl⟩

end DocComment.Occurrence
