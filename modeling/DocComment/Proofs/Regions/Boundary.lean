import DocComment.Proofs.Regions
import DocComment.Regions.Boundary
import Mathlib.Order.Bounds.Basic

/-! The cut of a text is where its regions end. A summary ends at the first line end where one
may be over, a description before the first breaks with a tag behind them, and the tags region
begins with the first line that begins with a tag; what is left out between two regions is
nothing but line breaks. -/

namespace DocComment.Regions

variable {s : List Char} {c : Char} {e : Nat}

/-! ### First positions -/

theorem isLeast_zero {p : Nat → Prop} (h : p 0) : IsLeast {e | p e} 0 :=
  ⟨h, fun _ _ => Nat.zero_le _⟩

theorem isLeast_succ {p : Nat → Prop} (h₀ : ¬ p 0) (h : IsLeast {e | p (e + 1)} e) :
    IsLeast {e | p e} (e + 1) := by
  refine ⟨h.1, fun d hd => ?_⟩
  cases d with
  | zero => exact absurd hd h₀
  | succ d => exact Nat.succ_le_succ (h.2 hd)

/-! ### Breaks at a position -/

theorem breaksAt_cons (c : Char) (s : List Char) (e : Nat) :
    breaksAt (c :: s) (e + 1) = breaksAt s e := rfl

theorem breaksAt_zero_ne : breaksAt (c :: s) 0 ≠ [] ↔ c = '\n' := by
  by_cases hc : c = '\n' <;> simp [breaksAt, hc]

theorem breaksAt_break (s : List Char) :
    breaksAt ('\n' :: s) 0 = '\n' :: s.takeWhile (· = '\n') := by
  simp [breaksAt]

/-- What stands behind the breaks at a position is found by dropping them. -/
theorem getElem?_breaksAt (s : List Char) (e : Nat) :
    s[e + (breaksAt s e).length]? = ((s.drop e).dropWhile (· = '\n')).head? := by
  have hs : breaksAt s e ++ (s.drop e).dropWhile (· = '\n') = s.drop e :=
    List.takeWhile_append_dropWhile
  calc s[e + (breaksAt s e).length]?
    _ = (breaksAt s e ++ (s.drop e).dropWhile (· = '\n'))[(breaksAt s e).length]? := by
      rw [hs, List.getElem?_drop]
    _ = ((s.drop e).dropWhile (· = '\n')).head? := by
      rw [List.getElem?_append_right (Nat.le_refl _), Nat.sub_self, List.head?_eq_getElem?]

theorem append_breaksAt (s : List Char) (e : Nat) :
    s.take e ++ (breaksAt s e ++ (s.drop e).dropWhile (· = '\n')) = s := by
  rw [breaksAt, List.takeWhile_append_dropWhile, List.take_append_drop]

theorem eq_of_mem_breaksAt (h : c ∈ breaksAt s e) : c = '\n' := by
  simpa using List.mem_takeWhile_imp h

theorem head?_eq_iff_startsTag : s.head? = some '@' ↔ startsTag s = true := by
  cases s <;> simp [startsTag]

theorem beforeTag_nil : ¬ BeforeTag [] e := by
  simp [BeforeTag, breaksAt]

theorem beforeTag_cons : BeforeTag (c :: s) (e + 1) ↔ BeforeTag s e := by
  rw [BeforeTag, BeforeTag, getElem?_breaksAt, getElem?_breaksAt, breaksAt_cons,
    List.drop_succ_cons]

theorem beforeTag_zero :
    BeforeTag (c :: s) 0 ↔ c = '\n' ∧ startsTag (s.dropWhile (· = '\n')) = true := by
  rw [BeforeTag, getElem?_breaksAt, breaksAt_zero_ne, head?_eq_iff_startsTag, List.drop_zero]
  refine and_congr_right fun hc => ?_
  rw [hc, List.dropWhile_cons_of_pos (by simp)]

/-! ### The summary -/

/-- A line end where a summary is over, when a period may stand before the text. -/
def EndsBehind (period : Bool) (s : List Char) (e : Nat) : Prop :=
  EndsSummary s e ∨ period = true ∧ e = 0 ∧ breaksAt s 0 ≠ []

theorem endsSummary_cons : EndsSummary (c :: s) (e + 1) ↔ EndsBehind (c == '.') s e := by
  constructor
  · intro h
    cases h with
    | tag h => exact Or.inl (.tag (beforeTag_cons.1 h))
    | period hb he hp =>
      cases e with
      | zero => exact Or.inr ⟨by simpa using hp, rfl, hb⟩
      | succ e => exact Or.inl (.period hb (Nat.succ_pos e) (by simpa using hp))
    | blank h => exact Or.inl (.blank h)
    | text h => exact Or.inl (.text (Nat.succ.inj h))
  · rintro (h | ⟨hp, rfl, hb⟩)
    · cases h with
      | tag h => exact .tag (beforeTag_cons.2 h)
      | period hb he hp =>
        obtain ⟨e, rfl⟩ := Nat.exists_eq_succ_of_ne_zero he.ne'
        exact .period hb (Nat.succ_pos _) (by simpa using hp)
      | blank h => exact .blank h
      | text h => exact .text (congrArg Nat.succ h)
    · exact .period hb Nat.one_pos (by simpa using hp)

theorem endsBehind_zero {period : Bool} : EndsBehind period (c :: s) 0 ↔
    c = '\n' ∧ (startsTag (s.dropWhile (· = '\n')) || period || s.head? == some '\n') = true := by
  have hblank (s : List Char) :
      2 ≤ (breaksAt ('\n' :: s) 0).length ↔ s.head? = some '\n' := by
    rw [breaksAt_break]
    cases s with
    | nil => simp
    | cons d s => by_cases hd : d = '\n' <;> simp [hd]
  simp only [Bool.or_eq_true, beq_iff_eq]
  constructor
  · rintro (h | ⟨hp, -, hb⟩)
    · cases h with
      | tag h =>
        obtain ⟨hc, ht⟩ := beforeTag_zero.1 h
        exact ⟨hc, Or.inl (Or.inl ht)⟩
      | period hb he => exact absurd he (Nat.lt_irrefl 0)
      | blank h =>
        obtain rfl : c = '\n' := breaksAt_zero_ne.1 (List.length_pos_iff.1 (Nat.zero_lt_two.trans_le h))
        exact ⟨rfl, Or.inr ((hblank s).1 h)⟩
      | text h => exact absurd h (by simp)
    · exact ⟨breaksAt_zero_ne.1 hb, Or.inl (Or.inr hp)⟩
  · rintro ⟨rfl, (ht | hp) | hh⟩
    · exact Or.inl (.tag (beforeTag_zero.2 ⟨rfl, ht⟩))
    · exact Or.inr ⟨hp, rfl, breaksAt_zero_ne.2 rfl⟩
    · exact Or.inl (.blank ((hblank s).2 hh))

/-- A summary is read up to the first line end where it may be over, and the breaks there are
skipped. -/
theorem exists_isLeast_cutSummary (period : Bool) (s : List Char) :
    ∃ e, IsLeast {e | EndsBehind period s e} e ∧
      cutSummary period s = (s.take e, (s.drop e).dropWhile (· = '\n')) := by
  induction s generalizing period with
  | nil => exact ⟨0, isLeast_zero (Or.inl (.text rfl)), rfl⟩
  | cons c s ih =>
    by_cases hend : EndsBehind period (c :: s) 0
    · obtain ⟨rfl, hstop⟩ := endsBehind_zero.1 hend
      refine ⟨0, isLeast_zero hend, ?_⟩
      rw [cutSummary, if_pos rfl]
      dsimp only
      rw [if_pos hstop]
      simp
    · obtain ⟨e, hleast, hcut⟩ := ih (c == '.')
      have hsucc : IsLeast {e | EndsBehind period (c :: s) (e + 1)} e := by
        simpa [EndsBehind, endsSummary_cons] using hleast
      refine ⟨e + 1, isLeast_succ hend hsucc, ?_⟩
      rw [List.take_succ_cons, List.drop_succ_cons, cutSummary]
      by_cases hc : c = '\n'
      · -- a break that ends no summary is not a period either
        subst hc
        have hstop := fun h => hend (endsBehind_zero.2 ⟨rfl, h⟩)
        rw [if_pos rfl]
        dsimp only
        rw [if_neg hstop]
        exact congrArg (fun p => ('\n' :: p.1, p.2)) hcut
      · rw [if_neg hc, hcut]

/-! ### The description -/

theorem exists_isLeast_cutDescription (s : List Char) :
    (∃ e, IsLeast {e | BeforeTag s e} e ∧
        cutDescription s = (s.take e, (s.drop e).dropWhile (· = '\n'))) ∨
      (∀ e, ¬ BeforeTag s e) ∧ cutDescription s = (s, []) := by
  induction s with
  | nil => exact Or.inr ⟨fun _ => beforeTag_nil, rfl⟩
  | cons c s ih =>
    rw [cutDescription]
    by_cases hend : BeforeTag (c :: s) 0
    · obtain ⟨rfl, ht⟩ := beforeTag_zero.1 hend
      refine Or.inl ⟨0, isLeast_zero hend, ?_⟩
      rw [if_pos (by simpa using ht)]
      simp
    · rw [if_neg (by simpa [beforeTag_zero] using hend)]
      rcases ih with ⟨e, hleast, hcut⟩ | ⟨hnone, hcut⟩
      · refine Or.inl ⟨e + 1, isLeast_succ hend (by simpa only [beforeTag_cons] using hleast), ?_⟩
        rw [hcut, List.take_succ_cons, List.drop_succ_cons]
      · refine Or.inr ⟨fun e => ?_, by rw [hcut]⟩
        cases e with
        | zero => exact hend
        | succ e => exact fun h => hnone e (beforeTag_cons.1 h)

/-! ### The tags -/

/-- A break stands at a position, and a tag begins right behind it. -/
def BreakBeforeTag (s : List Char) (p : Nat) : Prop := s[p]? = some '\n' ∧ s[p + 1]? = some '@'

theorem tagStarts_succ : TagStarts s (e + 1) ↔ BreakBeforeTag s e := by
  simp [TagStarts, BreakBeforeTag]

theorem exists_isLeast_behindBreak (s : List Char) :
    (∃ p, IsLeast {p | BreakBeforeTag s p} p ∧ behindBreak s = s.drop (p + 1)) ∨
      (∀ p, ¬ BreakBeforeTag s p) ∧ behindBreak s = [] := by
  induction s with
  | nil => exact Or.inr ⟨by simp [BreakBeforeTag], rfl⟩
  | cons c s ih =>
    have hzero : BreakBeforeTag (c :: s) 0 ↔ c = '\n' ∧ startsTag s = true := by
      simp [BreakBeforeTag, ← head?_eq_iff_startsTag, List.head?_eq_getElem?]
    have hsucc (p : Nat) : BreakBeforeTag (c :: s) (p + 1) ↔ BreakBeforeTag s p := by
      simp [BreakBeforeTag]
    rw [behindBreak]
    by_cases hend : BreakBeforeTag (c :: s) 0
    · rw [if_pos (by simpa using hzero.1 hend)]
      exact Or.inl ⟨0, isLeast_zero hend, by simp⟩
    · rw [if_neg (by simpa [hzero] using hend)]
      rcases ih with ⟨p, hleast, hrest⟩ | ⟨hnone, hrest⟩
      · refine Or.inl ⟨p + 1, isLeast_succ hend (by simpa only [hsucc] using hleast), ?_⟩
        rw [hrest, List.drop_succ_cons]
      · refine Or.inr ⟨fun p => ?_, hrest⟩
        cases p with
        | zero => exact hend
        | succ p => exact fun h => hnone p ((hsucc p).1 h)

theorem exists_isLeast_fromTag (s : List Char) :
    (∃ p, IsLeast {p | TagStarts s p} p ∧ fromTag s = s.drop p) ∨
      (∀ p, ¬ TagStarts s p) ∧ fromTag s = [] := by
  have hzero : TagStarts s 0 ↔ startsTag s = true := by
    simp [TagStarts, ← head?_eq_iff_startsTag, List.head?_eq_getElem?]
  rw [fromTag]
  split_ifs with ht
  · exact Or.inl ⟨0, isLeast_zero (hzero.2 ht), rfl⟩
  · have hend : ¬ TagStarts s 0 := fun h => ht (hzero.1 h)
    rcases exists_isLeast_behindBreak s with ⟨p, hleast, hrest⟩ | ⟨hnone, hrest⟩
    · exact Or.inl ⟨p + 1, isLeast_succ hend (by simpa only [tagStarts_succ] using hleast), hrest⟩
    · refine Or.inr ⟨fun p => ?_, hrest⟩
      cases p with
      | zero => exact hend
      | succ p => exact fun h => hnone p (tagStarts_succ.1 h)

/-! ### The whole text -/

/-- What is left behind a summary is cut into a description and tags. -/
theorem exists_breaks_unlessTag (s : List Char) :
    ∃ breaks, s = (unlessTag cutDescription s).1 ++ (breaks ++ (unlessTag cutDescription s).2) ∧
      (∀ c ∈ breaks, c = '\n') ∧
      (s.head? ≠ some '@' → UpToTag s (unlessTag cutDescription s).1 breaks) := by
  rw [unlessTag]
  split_ifs with ht
  · exact ⟨[], rfl, by simp, fun h => absurd (head?_eq_iff_startsTag.2 ht) h⟩
  · rcases exists_isLeast_cutDescription s with ⟨e, hleast, hcut⟩ | ⟨hnone, hcut⟩
    · rw [hcut]
      exact ⟨breaksAt s e, (append_breaksAt s e).symm, fun c hc => eq_of_mem_breaksAt hc,
        fun _ => Or.inl ⟨e, hleast, rfl, rfl⟩⟩
    · rw [hcut]
      exact ⟨[], by simp, by simp, fun _ => Or.inr ⟨hnone, rfl, rfl⟩⟩

/-- A text without its summary. -/
theorem exists_breaks_summary (s : List Char) :
    ∃ breaks, s = (unlessTag (cutSummary false) s).1 ++
        (breaks ++ (unlessTag (cutSummary false) s).2) ∧
      (∀ c ∈ breaks, c = '\n') ∧
      (s.head? = some '@' → (unlessTag (cutSummary false) s).1 = [] ∧ breaks = []) ∧
      (s.head? ≠ some '@' → ∃ e, IsLeast {e | EndsSummary s e} e ∧
        (unlessTag (cutSummary false) s).1 = s.take e ∧ breaks = breaksAt s e) := by
  rw [unlessTag]
  split_ifs with ht
  · exact ⟨[], rfl, by simp, fun _ => ⟨rfl, rfl⟩,
      fun h => absurd (head?_eq_iff_startsTag.2 ht) h⟩
  · obtain ⟨e, hleast, hcut⟩ := exists_isLeast_cutSummary false s
    have hleast' : IsLeast {e | EndsSummary s e} e := by simpa [EndsBehind] using hleast
    rw [hcut]
    exact ⟨breaksAt s e, (append_breaksAt s e).symm, fun c hc => eq_of_mem_breaksAt hc,
      fun h => absurd (head?_eq_iff_startsTag.1 h) ht, fun _ => ⟨e, hleast', rfl, rfl⟩⟩

theorem exists_isCut (s : List Char) :
    ∃ breaks breaks', IsCut s (cut s).1 breaks (cut s).2.1 breaks' (cut s).2.2 := by
  obtain ⟨breaks, hwhole, hbreaks, hempty, hend⟩ := exists_breaks_summary s
  obtain ⟨breaks', hrest, hbreaks', hdescription⟩ :=
    exists_breaks_unlessTag (unlessTag (cutSummary false) s).2
  replace hrest : (unlessTag (cutSummary false) s).2 =
    (cut s).2.1 ++ (breaks' ++ (cut s).2.2) := hrest
  refine ⟨breaks, breaks', ?_⟩
  exact {
    whole := hrest ▸ hwhole
    breaks_only := fun c hc => (List.mem_append.1 hc).elim (hbreaks c) (hbreaks' c)
    tags_first := tags_cut s ▸ exists_isLeast_fromTag s
    summary_empty := hempty
    summary_end := hend
    description_end := by
      rw [← hrest]
      exact fun _ hh => hdescription hh }

/-- A text that is not empty has regions, which end where they have to and are the whole of it
but for the breaks between them. -/
theorem of?_isCut {text : String} (h : text ≠ "") :
    ∃ r breaks breaks', of? text = some r ∧
      IsCut text.toList r.summary.toList breaks r.description.toList breaks' r.tags.toList := by
  obtain ⟨breaks, breaks', hcut⟩ := exists_isCut text.toList
  refine ⟨_, breaks, breaks', of?_eq h, ?_⟩
  simpa only [String.toList_ofList] using hcut

/-- A break in front of the text is part of the summary, two before the tag are of no region. -/
theorem of?_isCut_breaks :
    "\nA.\nb\n\n@c" ≠ "" ∧ of? "\nA.\nb\n\n@c" = some ⟨"\nA.", "b", "@c"⟩ ∧
      ∃ breaks breaks', IsCut "\nA.\nb\n\n@c".toList "\nA.".toList breaks "b".toList breaks'
        "@c".toList := by
  have h : "\nA.\nb\n\n@c" ≠ "" := by decide
  have hof : of? "\nA.\nb\n\n@c" = some ⟨"\nA.", "b", "@c"⟩ := by decide +kernel
  obtain ⟨r, breaks, breaks', hr, hcut⟩ := of?_isCut h
  obtain rfl : Regions.mk "\nA." "b" "@c" = r := Option.some.inj (hof.symm.trans hr)
  exact ⟨h, hof, breaks, breaks', hcut⟩

/-- Every region stands in the text. -/
theorem infix_of_of? {text : String} {r : Regions} (h : of? text = some r) :
    r.summary.toList <:+: text.toList ∧ r.description.toList <:+: text.toList ∧
      r.tags.toList <:+: text.toList := by
  have hne : text ≠ "" := by
    rintro rfl
    have hnone : of? "" = none := rfl
    exact absurd (h.symm.trans hnone) (by simp)
  obtain rfl : _ = r := Option.some.inj ((of?_eq hne).symm.trans h)
  obtain ⟨breaks, breaks', hcut⟩ := exists_isCut text.toList
  simp only [String.toList_ofList]
  refine ⟨⟨[], _, hcut.whole.symm⟩, ?_, ?_⟩
  · exact ⟨(cut text.toList).1 ++ breaks, breaks' ++ (cut text.toList).2.2, by
      simpa only [List.append_assoc] using hcut.whole.symm⟩
  · exact ⟨(cut text.toList).1 ++ breaks ++ ((cut text.toList).2.1 ++ breaks'), [], by
      simpa only [List.append_assoc, List.append_nil] using hcut.whole.symm⟩

end DocComment.Regions
