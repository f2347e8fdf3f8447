import DocComment.Occurrence.Found
import DocComment.Occurrence.WellFormed
import DocComment.Proofs.Text.Lines

/-! Each form of a body is read back where it is written. A reader stops at the end of the
form whatever follows; only a name and a description need that what follows ends them. -/

namespace DocComment.Occurrence

open Text

/-! ### Names -/

/-- What may follow a name and its specialization. -/
def EndsHead (r : List Char) : Prop := ∀ c ∈ r.head?, isNamePart c = false ∧ c ≠ ':'

theorem isNamePart_of_isSpecializationPart {c : Char} (h : isSpecializationPart c = true) :
    isNamePart c = true := by
  simp only [isSpecializationPart, Bool.or_eq_true, beq_iff_eq] at h
  rcases h with (h | h) | rfl
  · simp [isNamePart, h]
  · simp [isNamePart, h]
  · rfl

theorem name?_append {name r : List Char} (hn : isName (String.ofList name) = true)
    (hr : ∀ c ∈ r.head?, isNamePart c = false) : name? (name ++ r) = some (name, r) := by
  cases name with
  | nil => exact absurd hn (by decide)
  | cons c l =>
    simp only [isName, String.toList_ofList, Bool.and_eq_true, List.all_eq_true] at hn
    obtain ⟨hc, hl⟩ := hn
    rw [List.cons_append, name?, if_pos hc, takeWhile_append_stop hl hr,
      dropWhile_append_stop hl hr]

theorem head?_specializationText (special : Option (List Char)) {r : List Char}
    (hr : EndsHead r) : ∀ c ∈ (specializationText special ++ r).head?, isNamePart c = false := by
  cases special with
  | none => exact fun c hc => (hr c hc).1
  | some l =>
    intro c hc
    have he : ':' = c := by simpa [specializationText] using hc
    exact he ▸ rfl

theorem splitSpecialization_specializationText {special : Option (List Char)}
    (hf : special ≠ some []) (hp : ∀ l ∈ special, ∀ c ∈ l, isSpecializationPart c = true)
    {r : List Char} (hr : EndsHead r) :
    splitSpecialization (specializationText special ++ r) = (special, r) := by
  cases special with
  | none =>
    show splitSpecialization r = (none, r)
    unfold splitSpecialization
    split
    · exact absurd rfl (hr ':' rfl).2
    · rfl
  | some l =>
    have hstop : ∀ c ∈ r.head?, isSpecializationPart c = false := by
      intro c hc
      by_contra hs
      have hs := isNamePart_of_isSpecializationPart (Bool.not_eq_false _ ▸ hs)
      rw [(hr c hc).1] at hs
      exact absurd hs (by decide)
    show splitSpecialization (':' :: (l ++ r)) = _
    rw [splitSpecialization, takeWhile_append_stop (hp l rfl) hstop,
      dropWhile_append_stop (hp l rfl) hstop]
    cases l with
    | nil => exact absurd rfl hf
    | cons c l => rfl

/-! ### Descriptions -/

theorem strip_eq {s : List Char} (hh : ∀ c ∈ s.head?, isBlank c = false)
    (hl : ∀ c ∈ s.getLast?, isBlank c = false) : strip s = s := by
  have h := trim_surrounded (a := []) (b := []) (by simp) (by simp) hh hl
  rwa [List.append_nil, List.nil_append] at h

/-- A description goes on to its last character, since each break in it is followed by a
line that is neither empty nor a tag. -/
theorem lineDescription?_append {s r : List Char} (hl : s.getLast? ≠ some '\n')
    (hp : ¬ ['\n', '\n'] <:+: s) (ht : ¬ ['\n', '@'] <:+: s)
    (hr : r = [] ∨ ∃ q, r = '\n' :: q ∧ endsDescription (q.dropWhile (· = '\n')) = true) :
    lineDescription? (s ++ r) = some (s, r) := by
  induction s with
  | nil =>
    rcases hr with rfl | ⟨q, rfl, hq⟩
    · rfl
    · simp [lineDescription?, hq]
  | cons c s ih =>
    have hp' : ¬ ['\n', '\n'] <:+: s := fun h => hp (h.trans (List.suffix_cons c s).isInfix)
    have ht' : ¬ ['\n', '@'] <:+: s := fun h => ht (h.trans (List.suffix_cons c s).isInfix)
    cases s with
    | nil =>
      have hc : c ≠ '\n' := fun he => hl (by simp [he])
      have hnil := ih (by simp) hp' ht'
      rw [List.nil_append] at hnil
      simp [Occurrence.lineDescription?, hc, hnil]
    | cons d s =>
      have hrest := ih (by simpa using hl) hp' ht'
      by_cases hc : c = '\n'
      · subst hc
        have hd : d ≠ '\n' := by
          rintro rfl
          exact hp (List.prefix_append ['\n', '\n'] s).isInfix
        have ha : d ≠ '@' := by
          rintro rfl
          exact ht (List.prefix_append ['\n', '@'] s).isInfix
        have hgo : endsDescription ((d :: s ++ r).dropWhile (· = '\n')) = false := by
          simp [hd, ha, endsDescription]
        rw [List.cons_append, lineDescription?, if_pos rfl, hgo, hrest]
        simp [hd]
      · rw [List.cons_append, lineDescription?, if_neg hc, hrest]
        rfl

theorem IsDescription.lineDescription? {s : List Char} (hs : IsDescription s) {r : List Char}
    (hr : r = [] ∨ ∃ q, r = '\n' :: q ∧ endsDescription (q.dropWhile (· = '\n')) = true) :
    Occurrence.lineDescription? (s ++ r) = some (s, r) := by
  refine lineDescription?_append (fun hl => ?_) hs.noPair hs.noTag hr
  exact absurd (hs.last '\n' hl) (by decide)

theorem IsInlineDescription.inlineDescription? {s : List Char} (hs : IsInlineDescription s)
    (r : List Char) :
    Occurrence.inlineDescription? (s ++ '\x7d' :: r) = some (s, '\x7d' :: r) := by
  have hin : ∀ c ∈ s, (c != '\x7d' && c != '\n') = true := by
    intro c hc
    have h := hs.inside c hc
    simp [h.1, h.2]
  have hout : ∀ c ∈ ('\x7d' :: r).head?, (c != '\x7d' && c != '\n') = false := by simp
  simp only [Occurrence.inlineDescription?, takeWhile_append_stop hin hout,
    dropWhile_append_stop hin hout]
  cases s with
  | nil => exact absurd rfl hs.filled
  | cons c s => rfl

/-! ### Signatures -/

/-- A signature ends with the only parenthesis in it that closes. -/
theorem IsSignature.exists_wrap (h : IsSignature s) :
    ∃ x, s = '(' :: (x ++ [')']) ∧ x ≠ [] ∧ ')' ∉ x := by
  cases h with
  | @plain x hx hc => exact ⟨x, rfl, hx, fun hm => (hc _ hm).2 rfl⟩
  | @comma x gap hx hc hg =>
    refine ⟨x ++ ',' :: gap, by simp, by simp, fun hm => ?_⟩
    rcases List.mem_append.1 hm with hm | hm
    · exact (hc _ hm).2 rfl
    · rcases List.mem_cons.1 hm with he | hm
      · exact absurd he (by decide)
      · exact absurd (hg _ hm) (by decide)

theorem IsSignature.signature? {s : List Char} (hs : IsSignature s) (r : List Char) :
    Occurrence.signature? (s ++ r) = some (s, r) := by
  have inside {x : List Char} (hc : ∀ c ∈ x, c ≠ ',' ∧ c ≠ ')') :
      ∀ c ∈ x, (c != ',' && c != ')') = true := by
    intro c hm
    have h := hc c hm
    simp [h.1, h.2]
  cases hs with
  | @plain x hx hc =>
    have hout : ∀ c ∈ (')' :: r).head?, (c != ',' && c != ')') = false := by simp
    simp only [Occurrence.signature?, List.cons_append, List.append_assoc, List.nil_append,
      takeWhile_append_stop (inside hc) hout, dropWhile_append_stop (inside hc) hout]
  | @comma x gap hx hc hg =>
    have hout : ∀ c ∈ (',' :: (gap ++ ')' :: r)).head?, (c != ',' && c != ')') = false := by simp
    have hend : ∀ c ∈ (')' :: r).head?, isGap c = false := by simp [isGap]
    simp only [Occurrence.signature?, List.cons_append, List.append_assoc, List.nil_append,
      takeWhile_append_stop (inside hc) hout, dropWhile_append_stop (inside hc) hout]
    cases x with
    | nil => exact absurd rfl hx
    | cons c x => simp [takeWhile_append_stop hg hend, dropWhile_append_stop hg hend]

theorem signature?_eq_none {s : List Char} (hs : s.head? ≠ some '(') : signature? s = none := by
  unfold signature?
  split
  · exact absurd rfl hs
  · rfl

theorem IsSignature.head? {s : List Char} (hs : IsSignature s) (r : List Char) :
    (s ++ r).head? = some '(' := by
  cases hs <;> rfl

end DocComment.Occurrence
