import DocComment.Proofs.TypeExpr.Word

/-! What every derivation of a type expression has. Its text begins with a character
that is neither a space nor a tab, and its nesting is a property of the text alone:
`mostOpen` counts the parentheses and angle brackets that are open at once. -/

namespace DocComment.TypeExpr.Grammar

open Text

/-! ### First characters -/

/-- A text that begins with a character that is neither a space nor a tab. -/
def Starts (s : List Char) : Prop := ∃ c r, s = c :: r ∧ isGap c = false

theorem Starts.append {s : List Char} (h : Starts s) (r : List Char) : Starts (s ++ r) := by
  obtain ⟨c, q, rfl, hc⟩ := h
  exact ⟨c, q ++ r, rfl, hc⟩

theorem Starts.ne_nil {s : List Char} (h : Starts s) : s ≠ [] := by
  obtain ⟨c, r, rfl, -⟩ := h
  exact List.cons_ne_nil c r

theorem isGap_of_isLabelStart {c : Char} (h : isLabelStart c = true) : isGap c = false := by
  cases hg : isGap c with
  | false => rfl
  | true =>
    have h1 : isLabelStart ' ' = false := by decide
    have h2 : isLabelStart '\t' = false := by decide
    simp only [isGap, Bool.or_eq_true, beq_iff_eq] at hg
    rcases hg with rfl | rfl <;> simp_all

theorem starts_keyword {k : String} (hk : k ∈ keywords) : Starts k.toList := by
  have key : ∀ k ∈ keywords, (k.toList.head?.any fun c => !isGap c) = true := by decide
  have hc := key k hk
  cases h : k.toList with
  | nil => simp [h] at hc
  | cons c r => exact ⟨c, r, rfl, by simpa [h] using hc⟩

theorem IsClassName.starts {n : List Char} (h : IsClassName n) : Starts n := by
  rcases h.1 with hp | ⟨p, rfl, -⟩
  · obtain ⟨c, m, rfl, hc, -⟩ := isPath_cons hp
    exact ⟨c, m, rfl, isGap_of_isLabelStart hc⟩
  · exact ⟨'\\', p, rfl, by decide⟩

theorem IsCollection.starts {n : List Char} {c : Option String} (h : IsCollection n c) :
    Starts n := by
  cases h with
  | array => exact starts_keyword (by decide)
  | className h => exact h.starts

/-- A generic begins with its collection and an angle bracket. -/
theorem Generic.exists_collection {n : Nat} {s : List Char} {c : Option String} {t : TypeExpr}
    (h : Generic n s c t) : ∃ name r, IsCollection name c ∧ s = name ++ '<' :: r := by
  cases h with
  | value hc _ => exact ⟨_, _, hc, rfl⟩
  | keyed hc _ _ _ => exact ⟨_, _, hc, rfl⟩

theorem Generic.starts {n : Nat} {s : List Char} {c : Option String} {t : TypeExpr}
    (h : Generic n s c t) : Starts s := by
  obtain ⟨name, r, hc, rfl⟩ := h.exists_collection
  exact hc.starts.append _

theorem Single.starts {n : Nat} {s : List Char} {t : TypeExpr} (h : Single n s t) :
    Starts s := by
  cases h with
  | keyword hk => exact starts_keyword hk
  | className hn => exact hn.starts
  | keywordArray hk _ => exact (starts_keyword hk).append _
  | classArray hn _ => exact hn.starts.append _
  | group _ _ => exact ⟨_, _, rfl, by decide⟩
  | generic hg => exact hg.starts
  | genericArray hg _ => exact hg.starts.append _

theorem Members.starts {n : Nat} {s : List Char} {t : TypeExpr} {ts : List TypeExpr}
    (h : Members n s t ts) : Starts s := by
  cases h with
  | one h => exact h.starts
  | more h _ => exact h.starts.append _

/-! ### Nesting -/

theorem le_mostOpen (opened : Nat) (s : List Char) : opened ≤ mostOpen opened s := by
  induction s generalizing opened with
  | nil => exact Nat.le_refl _
  | cons c r ih =>
    simp only [mostOpen]
    split
    · exact Nat.le_trans (Nat.le_succ _) (ih _)
    · split
      · exact Nat.le_max_left _ _
      · exact ih _

/-- A text without parentheses and angle brackets opens nothing. -/
def Flat (s : List Char) : Prop := ∀ c ∈ s, c ∉ ['(', ')', '<', '>']

theorem mostOpen_flat {s : List Char} (h : Flat s) (opened : Nat) (r : List Char) :
    mostOpen opened (s ++ r) = mostOpen opened r := by
  induction s with
  | nil => rfl
  | cons c s ih =>
    have hc := h c (by simp)
    simp only [List.mem_cons, List.not_mem_nil, or_false, not_or] at hc
    simp only [List.cons_append, mostOpen, hc, or_self, if_false]
    exact ih fun d hd => h d (by simp [hd])

theorem flat_keyword {k : String} (hk : k ∈ keywords) : Flat k.toList := by
  have key : ∀ k ∈ keywords, (k.toList.all fun c => !(['(', ')', '<', '>'].contains c)) = true := by
    decide
  intro c hc
  simpa using List.all_eq_true.1 (key k hk) c hc

theorem flat_of_labelParts {s : List Char} (h : ∀ c ∈ s, isLabelPart c = true ∨ c = '\\') :
    Flat s := by
  have key : ∀ c ∈ ['(', ')', '<', '>'], isLabelPart c = false ∧ c ≠ '\\' := by
    simp [isLabelPart, isLabelStart, isLetter, isDigit]
  intro c hc hm
  obtain ⟨hp, hb⟩ := key c hm
  rcases h c hc with h' | h'
  · rw [hp] at h'
    exact absurd h' (by simp)
  · exact hb h'

theorem IsPath.parts {s : List Char} (h : IsPath s) : ∀ c ∈ s, isLabelPart c = true ∨ c = '\\' := by
  have key : ∀ l, IsLabel l → ∀ c ∈ l, isLabelPart c = true ∨ c = '\\' := by
    rintro l ⟨d, r, rfl, hd, hr⟩ c hc
    rcases List.mem_cons.1 hc with rfl | hc
    · exact .inl (isLabelPart_of_isLabelStart hd)
    · exact .inl (hr c hc)
  induction h with
  | label hl => exact key _ hl
  | more hl _ ih =>
    intro c hc
    rcases List.mem_append.1 hc with hc | hc
    · exact key _ hl c hc
    · rcases List.mem_cons.1 hc with rfl | hc
      · exact .inr rfl
      · exact ih c hc

theorem IsClassName.flat {n : List Char} (h : IsClassName n) : Flat n := by
  apply flat_of_labelParts
  rcases h.1 with hp | ⟨p, rfl, hp⟩
  · exact hp.parts
  · intro c hc
    rcases List.mem_cons.1 hc with rfl | hc
    · exact .inr rfl
    · exact hp.parts c hc

theorem flat_pairs (n : Nat) : Flat (pairs n) := by
  induction n with
  | zero => simp [Flat, pairs]
  | succ n ih =>
    intro c hc
    simp only [pairs, List.mem_cons] at hc
    rcases hc with rfl | rfl | hc
    · decide
    · decide
    · exact ih c hc

theorem IsCollection.flat {n : List Char} {c : Option String} (h : IsCollection n c) : Flat n := by
  cases h with
  | array => exact flat_keyword (by decide)
  | className h => exact h.flat

theorem flat_gap {s : List Char} (h : ∀ d ∈ s, isGap d = true) : Flat s := by
  have key : ∀ c ∈ ['(', ')', '<', '>'], isGap c = false := by simp [isGap]
  intro c hc hm
  have := h c hc
  rw [key c hm] at this
  exact absurd this (by simp)

theorem mostOpen_open {c : Char} (h : c = '(' ∨ c = '<') (opened : Nat) (r : List Char) :
    mostOpen opened (c :: r) = mostOpen (opened + 1) r := by
  simp only [mostOpen, if_pos h]

theorem mostOpen_close {c : Char} (h : c = ')' ∨ c = '>') (opened : Nat) (r : List Char) :
    mostOpen (opened + 1) (c :: r) = max (opened + 1) (mostOpen opened r) := by
  have ho : ¬ (c = '(' ∨ c = '<') := by rcases h with rfl | rfl <;> decide
  simp only [mostOpen, if_neg ho, if_pos h, Nat.add_sub_cancel]

theorem mostOpen_other {c : Char} (h : c ∉ ['(', ')', '<', '>']) (opened : Nat) (r : List Char) :
    mostOpen opened (c :: r) = mostOpen opened r :=
  mostOpen_flat (s := [c]) (fun _ hd => List.mem_singleton.1 hd ▸ h) opened r

/-- A bracketed text adds one level. -/
theorem mostOpen_bracketed {o c : Char} (ho : o = '(' ∨ o = '<') (hc : c = ')' ∨ c = '>')
    {n : Nat} {s : List Char}
    (hs : ∀ opened r, mostOpen opened (s ++ r) = max (opened + n) (mostOpen opened r))
    (opened : Nat) (r : List Char) :
    mostOpen opened (o :: (s ++ c :: r)) = max (opened + (n + 1)) (mostOpen opened r) := by
  rw [mostOpen_open ho, hs, mostOpen_close hc]
  omega

mutual

theorem Single.mostOpen_append {n : Nat} {s : List Char} {t : TypeExpr} (h : Single n s t) :
    ∀ opened r, mostOpen opened (s ++ r) = max (opened + n) (mostOpen opened r) := by
  intro opened r
  have hle := le_mostOpen opened r
  match h with
  | .keyword hk => rw [mostOpen_flat (flat_keyword hk)]; omega
  | .className hn => rw [mostOpen_flat hn.flat]; omega
  | .keywordArray hk l =>
    rw [List.append_assoc, mostOpen_flat (flat_keyword hk), mostOpen_flat (flat_pairs l)]
    omega
  | .classArray hn l =>
    rw [List.append_assoc, mostOpen_flat hn.flat, mostOpen_flat (flat_pairs l)]
    omega
  | .group hm l =>
    rw [List.cons_append, List.append_assoc, List.cons_append,
      mostOpen_bracketed (.inl rfl) (.inl rfl) hm.mostOpen_append, mostOpen_flat (flat_pairs l)]
  | .generic hg => exact hg.mostOpen_append opened r
  | .genericArray hg l =>
    rw [List.append_assoc, hg.mostOpen_append, mostOpen_flat (flat_pairs l)]

theorem Generic.mostOpen_append {n : Nat} {s : List Char} {c : Option String} {t : TypeExpr}
    (h : Generic n s c t) :
    ∀ opened r, mostOpen opened (s ++ r) = max (opened + n) (mostOpen opened r) := by
  intro opened r
  match h with
  | .value hc hm =>
    rw [List.append_assoc, mostOpen_flat hc.flat, List.cons_append, List.append_assoc,
      List.cons_append, mostOpen_bracketed (.inr rfl) (.inr rfl) hm.mostOpen_append,
      List.nil_append]
  | @Generic.keyed n m _ k gap s _ _ _ _ _ hc hk hgap hm =>
    -- the key, the comma, the gap and the value are one text between the brackets
    have inner : ∀ opened r, mostOpen opened ((k ++ ',' :: (gap ++ s)) ++ r) =
        max (opened + max n m) (mostOpen opened r) := by
      intro opened r
      rw [List.append_assoc, hk.mostOpen_append, List.cons_append, mostOpen_other (by decide),
        List.append_assoc, mostOpen_flat (flat_gap hgap), hm.mostOpen_append]
      omega
    have := mostOpen_bracketed (.inr rfl) (.inr rfl) inner opened r
    rw [List.append_assoc, mostOpen_flat hc.flat, ← this]
    simp

theorem Members.mostOpen_append {n : Nat} {s : List Char} {t : TypeExpr} {ts : List TypeExpr}
    (h : Members n s t ts) :
    ∀ opened r, mostOpen opened (s ++ r) = max (opened + n) (mostOpen opened r) := by
  intro opened r
  match h with
  | .one h => exact h.mostOpen_append opened r
  | .more h hr =>
    rw [List.append_assoc, h.mostOpen_append, List.cons_append, mostOpen_other (by decide),
      hr.mostOpen_append]
    omega

end

/-- The nesting of a derivation is the nesting of its text. -/
theorem Expression.nesting_eq {n : Nat} {s : List Char} {t : TypeExpr} (h : Expression n s t) :
    n = mostOpen 0 s := by
  obtain ⟨u, us, hm, -⟩ := h
  have := hm.mostOpen_append 0 []
  simpa [mostOpen] using this.symm

end DocComment.TypeExpr.Grammar
