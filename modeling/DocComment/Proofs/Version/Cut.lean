import DocComment.Proofs.Version.Longest

/-! A text is cut into a version and what follows it in one way. Where a space or a colon stands
behind a version, the version ends there, since neither stands in one. -/

namespace DocComment.Version

open Text

/-! ### The cut is determined -/

variable {form : List Char → Prop} {s v e gap r : List Char}

theorem IsCut.unique {v' e' gap' r' : List Char} (h : IsCut form s v e gap r)
    (h' : IsCut form s v' e' gap' r') : v = v' ∧ e = e' ∧ gap = gap' ∧ r = r' := by
  obtain rfl : v = v' := h.version.unique h'.version
  have hrest : e ++ (gap ++ r) = e' ++ (gap' ++ r') :=
    List.append_cancel_left (h.whole.symm.trans h'.whole)
  obtain rfl : e = e' := h.ending.unique (hrest ▸ h'.ending)
  have hlast : gap ++ r = gap' ++ r' := List.append_cancel_left hrest
  obtain rfl : gap = gap' := h.gap.unique (hlast ▸ h'.gap)
  exact ⟨rfl, rfl, rfl, List.append_cancel_left hlast⟩

/-! ### Versions with something behind them -/

theorem IsNumber.isDigit {n : List Char} (hn : IsNumber n) : ∀ c ∈ n, Text.isDigit c = true := by
  cases hn with
  | zero => simp [Text.isDigit]
  | digits hc hz hd => exact List.forall_mem_cons.2 ⟨hc, hd⟩

/-- The characters that stand in a version. -/
def isVersionPart (c : Char) : Bool := isIdentifierPart c || c == '.'

theorem isVersionPart_of_isIdentifierPart {c : Char} (h : isIdentifierPart c = true) :
    isVersionPart c = true := by
  simp [isVersionPart, h]

theorem IsNumber.part {n : List Char} (hn : IsNumber n) : ∀ c ∈ n, isVersionPart c = true :=
  fun c hc => isVersionPart_of_isIdentifierPart (by simp [isIdentifierPart, hn.isDigit c hc])

theorem IsIdentifiers.part {l : List Char} (h : IsIdentifiers l) :
    ∀ c ∈ l, isVersionPart c = true := by
  induction h with
  | one hc hl =>
    rw [List.forall_mem_cons]
    exact ⟨isVersionPart_of_isIdentifierPart hc,
      fun d hd => isVersionPart_of_isIdentifierPart (hl d hd)⟩
  | more hc hl hr ih =>
    rw [List.forall_mem_cons, List.forall_mem_append, List.forall_mem_cons]
    exact ⟨isVersionPart_of_isIdentifierPart hc,
      fun d hd => isVersionPart_of_isIdentifierPart (hl d hd), rfl, ih⟩

theorem IsPreRelease.part {l : List Char} (h : IsPreRelease l) :
    ∀ c ∈ l, isVersionPart c = true := by
  cases h with
  | none => simp
  | some hl => exact List.forall_mem_cons.2 ⟨rfl, hl.part⟩

theorem IsVersion.part (hv : IsVersion v) : ∀ c ∈ v, isVersionPart c = true := by
  obtain ⟨hmajor, hminor, hpatch, hpre⟩ := hv
  simp only [List.forall_mem_append, List.forall_mem_cons]
  exact ⟨hmajor.part, rfl, hminor.part, rfl, hpatch.part, hpre.part⟩

theorem IsVersion.notMem {c : Char} (hc : isVersionPart c = false) : ∀ w, IsVersion w → c ∉ w :=
  fun w hw hm => absurd (hw.part c hm) (by simp [hc])

theorem IsEnding.notMem_space : ∀ w, IsEnding w → ' ' ∉ w := by
  rintro _ ⟨hv⟩ hm
  rcases List.mem_cons.1 hm with he | hm
  · exact absurd he (by decide)
  · exact IsVersion.notMem rfl _ hv hm

variable {text : List Char}

/-- A space is all of the gap in front of a text that begins with none. -/
theorem isLongest_space (hne : text ≠ []) (ht : ∀ c ∈ text.head?, isGap c = false) :
    IsLongest (fun l => ∀ c ∈ l, isGap c = true) ([' '] ++ text) [' '] := by
  cases text with
  | nil => exact absurd rfl hne
  | cons c text =>
    have hc : isGap c = false := ht c rfl
    refine isLongest_of_notMem (by simp [isGap]) (fun w hw hm => ?_) text
    exact absurd (hw c hm) (by simp [hc])

theorem isCut_version (hv : IsVersion v) (hform : IsLongest form ([] ++ ([' '] ++ text)) [])
    (hne : text ≠ []) (ht : ∀ c ∈ text.head?, isGap c = false) :
    IsCut form (v ++ ' ' :: text) v [] [' '] text where
  whole := rfl
  version := isLongest_of_notMem hv (IsVersion.notMem rfl) text
  ending := hform
  gap := isLongest_space hne ht

theorem isCut_versions {w : List Char} (hv : IsVersion v) (hw : IsVersion w)
    (hne : text ≠ []) (ht : ∀ c ∈ text.head?, isGap c = false) :
    IsCut IsEnding (v ++ ':' :: (w ++ ' ' :: text)) v (':' :: w) [' '] text where
  whole := rfl
  version := isLongest_of_notMem hv (IsVersion.notMem rfl) _
  ending := isLongest_of_notMem (.mk hw) IsEnding.notMem_space text
  gap := isLongest_space hne ht

end DocComment.Version
