import DocComment.Proofs.Text.Lines
import DocComment.Regions

/-! Where the regions of a text are cut. A summary is read up to its end when no line of
it but the last ends with a period, and a description up to the tags behind it, whatever
empty lines it holds. What is left begins behind the breaks. -/

namespace DocComment.Regions

open Text

/-- Lines that can be told from the empty lines around them. -/
structure IsRegion (ls : List (List Char)) : Prop where
  some_line : ls ≠ []
  noBreak : ∀ l ∈ ls, '\n' ∉ l
  head : ls.head? ≠ some []
  last : ls.getLast? ≠ some []

/-! ### Beginnings -/

theorem startsTag_append {l : List Char} (hl : l ≠ []) (r : List Char) :
    startsTag (l ++ r) = startsTag l := by
  cases l with
  | nil => exact absurd rfl hl
  | cons c l => rfl

theorem dropWhile_line {l : List Char} (hl : l ≠ []) (hn : '\n' ∉ l) (r : List Char) :
    (l ++ r).dropWhile (· = '\n') = l ++ r := by
  cases l with
  | nil => exact absurd rfl hl
  | cons c l =>
    have hc : c ≠ '\n' := fun h => hn (by simp [h])
    simp [hc]

theorem startsTag_unlines {l : List Char} (hl : l ≠ []) (ls : List (List Char)) (r : List Char) :
    startsTag (unlines (l :: ls) ++ r) = startsTag l := by
  obtain ⟨q, hq⟩ := unlines_eq_line_append l ls
  rw [hq, List.append_assoc, startsTag_append hl]

theorem dropWhile_unlines {l : List Char} (hl : l ≠ []) (hn : '\n' ∉ l) (ls : List (List Char))
    (r : List Char) :
    (unlines (l :: ls) ++ r).dropWhile (· = '\n') = unlines (l :: ls) ++ r := by
  obtain ⟨q, hq⟩ := unlines_eq_line_append l ls
  rw [hq, List.append_assoc, dropWhile_line hl hn]

/-! ### Summaries -/

/-- A line is part of the summary, and its last character is what counts for its end. -/
theorem cutSummary_line {l : List Char} (hl : l ≠ []) (hn : '\n' ∉ l) (r : List Char)
    (period : Bool) :
    cutSummary period (l ++ r) =
      (l ++ (cutSummary (l.getLast? == some '.') r).1,
        (cutSummary (l.getLast? == some '.') r).2) := by
  induction l generalizing period with
  | nil => exact absurd rfl hl
  | cons c l ih =>
    simp only [List.mem_cons, not_or] at hn
    have hc : c ≠ '\n' := Ne.symm hn.1
    cases l with
    | nil => simp [cutSummary, hc]
    | cons d l =>
      rw [List.cons_append, cutSummary, if_neg hc, ih (by simp) hn.2, List.getLast?_cons_cons]
      rfl

theorem cutSummary_end (period : Bool) {r : List Char}
    (hr : r = [] ∨ ∃ q, r = '\n' :: '\n' :: q) :
    cutSummary period r = ([], r.dropWhile (· = '\n')) := by
  rcases hr with rfl | ⟨q, rfl⟩
  · rfl
  · simp [cutSummary]

/-- The summary goes on behind a line that has no period at its end. -/
theorem cutSummary_break {l : List Char} (hl : l ≠ []) (hn : '\n' ∉ l)
    (ht : startsTag l = false) (ls : List (List Char)) (r : List Char) :
    cutSummary false ('\n' :: (unlines (l :: ls) ++ r)) =
      ('\n' :: (cutSummary false (unlines (l :: ls) ++ r)).1,
        (cutSummary false (unlines (l :: ls) ++ r)).2) := by
  rw [cutSummary, if_pos rfl]
  simp only [dropWhile_unlines hl hn, startsTag_unlines hl, ht]
  rw [if_neg (by simpa using head?_unlines hl hn ls r)]

theorem cutSummary_unlines {ls : List (List Char)} (hs : ls ≠ []) (hl : ∀ l ∈ ls, l ≠ [])
    (hn : ∀ l ∈ ls, '\n' ∉ l) (ht : ∀ l ∈ ls, startsTag l = false)
    (hp : ∀ l ∈ ls.dropLast, l.getLast? ≠ some '.') {r : List Char}
    (hr : r = [] ∨ ∃ q, r = '\n' :: '\n' :: q) (period : Bool) :
    cutSummary period (unlines ls ++ r) = (unlines ls, r.dropWhile (· = '\n')) := by
  induction ls generalizing period with
  | nil => exact absurd rfl hs
  | cons l ls ih =>
    obtain ⟨hl₁, hl'⟩ := List.forall_mem_cons.1 hl
    obtain ⟨hn₁, hn'⟩ := List.forall_mem_cons.1 hn
    cases ls with
    | nil =>
      rw [unlines, cutSummary_line hl₁ hn₁, cutSummary_end _ hr, List.append_nil]
    | cons m ms =>
      obtain ⟨hp₁, hp'⟩ := List.forall_mem_cons.1 hp
      have ht' := (List.forall_mem_cons.1 ht).2
      have hlast : (l.getLast? == some '.') = false := by simpa using hp₁
      rw [unlines_cons l (by simp), List.append_assoc, cutSummary_line hl₁ hn₁, hlast,
        List.cons_append, cutSummary_break (hl' m (by simp)) (hn' m (by simp)) (ht' m (by simp)),
        ih (by simp) hl' hn' ht' hp']

/-! ### Descriptions -/

theorem cutDescription_line {l : List Char} (hn : '\n' ∉ l) (r : List Char) :
    cutDescription (l ++ r) = (l ++ (cutDescription r).1, (cutDescription r).2) := by
  induction l with
  | nil => rfl
  | cons c l ih =>
    simp only [List.mem_cons, not_or] at hn
    have hc : c ≠ '\n' := Ne.symm hn.1
    simp [cutDescription, hc, ih hn.2]

/-- Behind the empty lines of a description that goes on there is no tag. -/
theorem startsTag_dropWhile {ls : List (List Char)} (hs : ls ≠ []) (hl : ls.getLast? ≠ some [])
    (hn : ∀ l ∈ ls, '\n' ∉ l) (ht : ∀ l ∈ ls, startsTag l = false) (r : List Char) :
    startsTag ((unlines ls ++ r).dropWhile (· = '\n')) = false := by
  induction ls with
  | nil => exact absurd rfl hs
  | cons l ls ih =>
    obtain ⟨hn₁, hn'⟩ := List.forall_mem_cons.1 hn
    obtain ⟨ht₁, ht'⟩ := List.forall_mem_cons.1 ht
    by_cases he : l = []
    · -- an empty line is not the last, and its break is dropped
      subst he
      cases ls with
      | nil => exact absurd rfl hl
      | cons m ms =>
        rw [unlines_cons [] (by simp)]
        simpa using ih (by simp) (by simpa using hl) hn' ht'
    · rw [dropWhile_unlines he hn₁, startsTag_unlines he]
      exact ht₁

theorem cutDescription_unlines {ls : List (List Char)} (hs : ls ≠ [])
    (hl : ls.getLast? ≠ some []) (hn : ∀ l ∈ ls, '\n' ∉ l)
    (ht : ∀ l ∈ ls, startsTag l = false) {r : List Char}
    (hr : r = [] ∨ ∃ q, r = '\n' :: q ∧ startsTag (r.dropWhile (· = '\n')) = true) :
    cutDescription (unlines ls ++ r) = (unlines ls, r.dropWhile (· = '\n')) := by
  induction ls with
  | nil => exact absurd rfl hs
  | cons l ls ih =>
    obtain ⟨hn₁, hn'⟩ := List.forall_mem_cons.1 hn
    have ht' := (List.forall_mem_cons.1 ht).2
    cases ls with
    | nil =>
      have hend : cutDescription r = ([], r.dropWhile (· = '\n')) := by
        rcases hr with rfl | ⟨q, rfl, hq⟩
        · rfl
        · simp only [List.dropWhile_cons, decide_true, if_true] at hq ⊢
          simp [cutDescription, hq]
      rw [unlines, cutDescription_line hn₁, hend, List.append_nil]
    | cons m ms =>
      have hlast : (m :: ms).getLast? ≠ some [] := by simpa using hl
      have hgo := startsTag_dropWhile (by simp) hlast hn' ht' r
      rw [unlines_cons l (by simp), List.append_assoc, cutDescription_line hn₁,
        List.cons_append, cutDescription, hgo, ih (by simp) hlast hn' ht']
      rfl

/-! ### The first tag -/

/-- What stands behind the first break with a tag behind it. -/
def behindBreak : List Char → List Char
  | [] => []
  | c :: r => if c = '\n' && startsTag r then r else behindBreak r

/-- A text from its first line that begins with a tag on. -/
def fromTag (s : List Char) : List Char := if startsTag s then s else behindBreak s

theorem behindBreak_break (s : List Char) : behindBreak ('\n' :: s) = fromTag s := by
  simp only [behindBreak, fromTag, decide_true, Bool.true_and]

theorem behindBreak_cons {c : Char} (hc : c ≠ '\n') (s : List Char) :
    behindBreak (c :: s) = behindBreak s := by
  simp [behindBreak, hc]

/-- Empty lines hold no tag. -/
theorem fromTag_dropWhile (s : List Char) : fromTag (s.dropWhile (· = '\n')) = fromTag s := by
  induction s with
  | nil => rfl
  | cons c s ih =>
    by_cases hc : c = '\n'
    · subst hc
      rw [List.dropWhile_cons_of_pos (by simp), ih, ← behindBreak_break]
      rfl
    · rw [List.dropWhile_cons_of_neg (by simpa using hc)]

/-- A line that begins with a tag is not reached by way of empty lines only. -/
theorem startsTag_eq_false {s : List Char} (h : startsTag (s.dropWhile (· = '\n')) = false) :
    startsTag s = false := by
  cases s with
  | nil => rfl
  | cons c s =>
    by_cases hc : c = '\n'
    · subst hc
      rfl
    · rwa [List.dropWhile_cons_of_neg (by simpa using hc)] at h

/-- A summary runs over no line that begins with a tag. -/
theorem fromTag_cutSummary (period : Bool) (s : List Char) :
    fromTag (cutSummary period s).2 = behindBreak s := by
  induction s generalizing period with
  | nil => rfl
  | cons c s ih =>
    by_cases hc : c = '\n'
    · subst hc
      rw [cutSummary, if_pos rfl, behindBreak_break]
      dsimp only
      split_ifs with hend
      · exact fromTag_dropWhile s
      · have hs : startsTag s = false := startsTag_eq_false (by simp_all)
        rw [ih, fromTag, hs]
        rfl
    · rw [cutSummary, if_neg hc, behindBreak_cons hc]
      exact ih _

/-- A description runs up to the first line that begins with a tag. -/
theorem cutDescription_rest (s : List Char) : (cutDescription s).2 = behindBreak s := by
  induction s with
  | nil => rfl
  | cons c s ih =>
    rw [cutDescription]
    split_ifs with hend
    · obtain ⟨rfl, ht⟩ : c = '\n' ∧ startsTag (s.dropWhile (· = '\n')) = true := by
        simpa using hend
      rw [behindBreak_break, ← fromTag_dropWhile, fromTag, if_pos ht]
    · by_cases hc : c = '\n'
      · subst hc
        have hs : startsTag s = false := startsTag_eq_false (by simpa using hend)
        rw [behindBreak_break, fromTag, hs]
        exact ih
      · rw [behindBreak_cons hc]
        exact ih

/-- The tags region begins with the first line that begins with a tag. -/
theorem tags_cut (s : List Char) : (cut s).2.2 = fromTag s := by
  have rest (r : List Char) : (unlessTag cutDescription r).2 = fromTag r := by
    rw [unlessTag, fromTag, ← cutDescription_rest]
    split_ifs <;> rfl
  have hcut : (cut s).2.2 = fromTag (unlessTag (cutSummary false) s).2 := rest _
  rw [hcut, unlessTag]
  split_ifs with hs
  · rfl
  · rw [fromTag_cutSummary, fromTag, if_neg hs]

theorem of?_eq {text : String} (h : text ≠ "") :
    of? text = some ⟨String.ofList (cut text.toList).1, String.ofList (cut text.toList).2.1,
      String.ofList (cut text.toList).2.2⟩ := by
  rw [of?]
  split
  next hs =>
    exact absurd (String.toList_eq_nil_iff.1 hs) h
  next => rfl

end DocComment.Regions
