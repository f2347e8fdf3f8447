import DocComment.Comment.Layout
import DocComment.Proofs.Comment.Woven

/-! The decoration of a comment that is laid out in any way is taken off again. The lines
come out as they were put in, without the line of the opening and that of the closing. Of
any other text the lines come out trimmed, with no empty one at either end. -/

namespace DocComment.Comment

open Text

/-! ### Gaps -/

/-- A character that is neither a space nor a tab is in no gap. -/
theorem IsGap.notMem {s : List Char} (hs : IsGap s) {c : Char} (hc : isGap c = false) :
    c ∉ s := by
  intro hm
  have h := hs c hm
  rw [hc] at h
  exact absurd h (by decide)

theorem IsGap.head?_star {s : List Char} (hs : IsGap s) (r : List Char) :
    (s ++ '*' :: r).head? ≠ some '\n' := by
  cases s with
  | nil => simp
  | cons c s =>
    intro h
    have hc : c = '\n' := by simpa using h
    have hg : isGap '\n' = true := hc ▸ hs c (by simp)
    exact absurd hg (by decide)

/-! ### Single lines -/

theorem dropMarker_star {indent : List Char} (hi : IsGap indent) (r : List Char) :
    dropMarker (indent ++ '*' :: r) = r := by
  have hd : (indent ++ '*' :: r).dropWhile isGap = '*' :: r := by
    rw [List.dropWhile_append_of_pos hi]
    simp [isGap]
  simp only [dropMarker, hd]

theorem dropMarker_gap {s : List Char} (hs : IsGap s) : dropMarker s = s := by
  have hd : s.dropWhile isGap = [] := List.dropWhile_eq_nil_iff.2 hs
  simp only [dropMarker, hd]

/-- The closing is taken off the last line, what stands before it is left. -/
theorem dropClosing_of_unclosed {s : List Char} (h : Unclosed s) :
    dropClosing (s ++ ['*', '/']) = s := by
  induction s with
  | nil => rfl
  | cons c s ih =>
    obtain ⟨hc, hs⟩ := unclosed_cons.1 h
    have hn : isClosing (c :: (s ++ ['*', '/'])) = false := by
      rw [isClosing]
      intro r hr
      obtain ⟨rfl, htail⟩ := List.cons.inj hr
      cases s with
      | nil => exact absurd htail (by simp)
      | cons d s =>
        obtain ⟨rfl, -⟩ := List.cons.inj htail
        exact hc ⟨rfl, rfl⟩
    rw [List.cons_append, dropClosing, hn, ih hs]
    rfl

theorem dropClosing_star {indent : List Char} (hi : IsGap indent) :
    dropClosing (indent ++ ['*', '/']) = indent :=
  dropClosing_of_unclosed fun h => hi.notMem (c := '*') rfl (h.subset (by simp))

theorem modifyLast_append (f : List Char → List Char) (ls : List (List Char)) (l : List Char) :
    modifyLast f (ls ++ [l]) = ls ++ [f l] := by
  induction ls with
  | nil => rfl
  | cons k ls ih =>
    cases ls with
    | nil => rfl
    | cons m ms =>
      show k :: modifyLast f (m :: ms ++ [l]) = k :: (m :: ms ++ [f l])
      rw [ih]

/-! ### All lines -/

theorem IsLine.notMem_cr {l : List Char} (h : IsLine l) : '\r' ∉ l :=
  fun hm => (h.noBreak _ hm).1 rfl

theorem IsLine.notMem_lf {l : List Char} (h : IsLine l) : '\n' ∉ l :=
  fun hm => (h.noBreak _ hm).2 rfl

/-- Lines without the empty ones around them, when neither the first nor the last is empty. -/
theorem dropEmptyEnds_surrounded {a ls b : List (List Char)} (ha : ∀ l ∈ a, l = [])
    (hb : ∀ l ∈ b, l = []) (hh : ls.head? ≠ some []) (hl : ls.getLast? ≠ some []) :
    dropEmptyEnds (a ++ (ls ++ b)) = ls := by
  have filled {o : Option (List Char)} (ho : o ≠ some []) : ∀ l ∈ o, l.isEmpty = false := by
    rintro l rfl
    cases l with
    | nil => exact absurd rfl ho
    | cons c l => rfl
  exact dropWhile_ends (fun l hm => List.isEmpty_iff.2 (ha l hm))
    (fun l hm => List.isEmpty_iff.2 (hb l hm)) (filled hh) (filled hl)

/-- A line behind its star is cut off with its star, and the star goes with what is around
it. -/
theorem LaidLine.lines {l s : List Char} (hl : IsLine l) (h : LaidLine l s) {r : List Char}
    (hr : r.head? ≠ some '\n') :
    ∃ raw, Text.lines (unifyBreaks (s ++ r)) = raw :: Text.lines (unifyBreaks r) ∧
      trim isGap (dropMarker raw) = l := by
  obtain @⟨indent, before, behind, ending, hi, hb, ha, he⟩ := h
  have out (c : Char) (hc : isGap c = false) (hs : c ≠ '*') (hm : c ∉ l) :
      c ∉ indent ++ '*' :: (before ++ (l ++ behind)) := by
    simp [hi.notMem hc, hb.notMem hc, ha.notMem hc, hs, hm]
  refine ⟨indent ++ '*' :: (before ++ (l ++ behind)), ?_, ?_⟩
  · have hcut := lines_unifyBreaks_break (out '\r' rfl (by decide) hl.notMem_cr)
      (out '\n' rfl (by decide) hl.notMem_lf) he hr
    simpa only [List.append_assoc, List.cons_append] using hcut
  · rw [dropMarker_star hi]
    exact trim_surrounded hb ha hl.head hl.last

theorem LaidLines.head?_append {ls : List (List Char)} {body : List Char}
    (h : LaidLines ls body) {indent : List Char} (hi : IsGap indent) :
    (body ++ (indent ++ ['*', '/'])).head? ≠ some '\n' := by
  cases h with
  | nil => exact hi.head?_star _
  | cons h _ =>
    obtain ⟨hg, _, _, _⟩ := h
    simp only [List.append_assoc, List.cons_append]
    exact hg.head?_star _

theorem LaidLines.lines {ls : List (List Char)} {body : List Char} (h : LaidLines ls body)
    (hl : ∀ l ∈ ls, IsLine l) {indent : List Char} (hi : IsGap indent) :
    ∃ raws, Text.lines (unifyBreaks (body ++ (indent ++ ['*', '/']))) =
        raws ++ [indent ++ ['*', '/']] ∧
      raws.map (fun raw => trim isGap (dropMarker raw)) = ls := by
  induction h with
  | nil =>
    have hr : '\r' ∉ indent ++ ['*', '/'] := by simp [hi.notMem (c := '\r') rfl]
    have hn : '\n' ∉ indent ++ ['*', '/'] := by simp [hi.notMem (c := '\n') rfl]
    exact ⟨[], by rw [List.nil_append, unifyBreaks_of_notMem hr, lines_of_notMem hn,
      List.nil_append], rfl⟩
  | cons h hr ih =>
    obtain ⟨raws, hraws, hmap⟩ := ih fun l hm => hl l (by simp [hm])
    obtain ⟨raw, hraw, hline⟩ := h.lines (hl _ (by simp)) (hr.head?_append hi)
    refine ⟨raw :: raws, ?_, by rw [List.map_cons, hline, hmap]⟩
    rw [List.append_assoc, hraw, hraws, List.cons_append]

/-- The lines of a comment that is laid out, when the first and the last are not empty. -/
theorem LaidOut.bareLines {ls : List (List Char)} {comment : List Char} (h : LaidOut ls comment)
    (hl : ∀ l ∈ ls, IsLine l) (hh : ls.head? ≠ some []) (ht : ls.getLast? ≠ some []) :
    bareLines comment = ls := by
  obtain @⟨ending, body, indent, he, hb, hi⟩ := h
  obtain ⟨raws, hraws, hmap⟩ := hb.lines hl hi
  have hopen : Text.lines (unifyBreaks
      ('/' :: '*' :: '*' :: (ending ++ (body ++ (indent ++ ['*', '/']))))) =
      ['/', '*', '*'] :: (raws ++ [indent ++ ['*', '/']]) := by
    rw [← hraws]
    exact lines_unifyBreaks_break (l := ['/', '*', '*']) (by decide) (by decide) he
      (hb.head?_append hi)
  have hends : dropEnds (['/', '*', '*'] :: (raws ++ [indent ++ ['*', '/']])) =
      [] :: (raws ++ [indent]) := by
    show modifyLast dropClosing (([] :: raws) ++ [indent ++ ['*', '/']]) = _
    rw [modifyLast_append, dropClosing_star hi]
    rfl
  have htrim : (dropMarkers ([] :: (raws ++ [indent]))).map (trim isGap) =
      [[]] ++ (ls ++ [[]]) := by
    have hnil : trim isGap [] = [] := rfl
    rw [← hmap]
    simp only [dropMarkers, List.map_cons, List.map_append, List.map_nil, List.map_map,
      dropMarker_gap hi, trim_eq_nil hi, hnil]
    rfl
  rw [Comment.bareLines, hopen, hends, htrim]
  exact dropEmptyEnds_surrounded (by simp) (by simp) hh ht

/-! ### Any comment -/

theorem dropOpening_suffix (l : List Char) : dropOpening l <:+ l := by
  unfold dropOpening
  split
  next r hr =>
    exact List.IsSuffix.trans ⟨['/', '*', '*'], hr.symm⟩ (List.dropWhile_suffix isGap)
  next => exact List.suffix_refl l

theorem dropMarker_suffix (l : List Char) : dropMarker l <:+ l := by
  unfold dropMarker
  split
  next r hr =>
    exact List.IsSuffix.trans ⟨['*'], hr.symm⟩ (List.dropWhile_suffix isGap)
  next => exact List.suffix_refl l

theorem dropClosing_begins (l : List Char) : dropClosing l <+: l := by
  induction l with
  | nil => exact List.prefix_refl _
  | cons c l ih =>
    rw [dropClosing]
    split
    · exact List.nil_prefix
    · exact List.prefix_cons_iff.2 (Or.inr ⟨_, rfl, ih⟩)

theorem mem_modifyLast {f : List Char → List Char} {ls : List (List Char)} {l : List Char}
    (h : l ∈ modifyLast f ls) : l ∈ ls ∨ ∃ k ∈ ls, l = f k := by
  induction ls with
  | nil => exact absurd h (by simp [modifyLast])
  | cons k ls ih =>
    cases ls with
    | nil => exact Or.inr ⟨k, by simp, by simpa [modifyLast] using h⟩
    | cons m ms =>
      rcases List.mem_cons.1 h with rfl | h
      · exact Or.inl (by simp)
      · obtain hl | ⟨k, hk, hl⟩ := ih h
        · exact Or.inl (List.mem_cons_of_mem _ hl)
        · exact Or.inr ⟨k, List.mem_cons_of_mem _ hk, hl⟩

/-- A line without decoration is part of the line that had it. -/
theorem infix_of_mem_dropEnds {ls : List (List Char)} {l : List Char} (h : l ∈ dropEnds ls) :
    ∃ k ∈ ls, l <:+: k := by
  cases ls with
  | nil => exact absurd h (by simp [dropEnds])
  | cons m ls =>
    have hopen : ∀ k ∈ dropOpening m :: ls, ∃ n ∈ m :: ls, k <:+: n := by
      refine List.forall_mem_cons.2 ⟨⟨m, by simp, (dropOpening_suffix m).isInfix⟩, fun k hk => ?_⟩
      exact ⟨k, List.mem_cons_of_mem _ hk, List.infix_refl k⟩
    rcases mem_modifyLast h with hl | ⟨k, hk, rfl⟩
    · exact hopen l hl
    · obtain ⟨n, hn, hi⟩ := hopen k hk
      exact ⟨n, hn, (dropClosing_begins k).isInfix.trans hi⟩

theorem infix_of_mem_dropMarkers {ls : List (List Char)} {l : List Char}
    (h : l ∈ dropMarkers ls) : ∃ k ∈ ls, l <:+: k := by
  cases ls with
  | nil => exact absurd h (by simp [dropMarkers])
  | cons m ls =>
    rcases List.mem_cons.1 h with rfl | h
    · exact ⟨l, by simp, List.infix_refl l⟩
    · obtain ⟨k, hk, rfl⟩ := List.mem_map.1 h
      exact ⟨k, List.mem_cons_of_mem _ hk, (dropMarker_suffix k).isInfix⟩

/-- A line without decoration is what is left of a line between opening and closing. -/
theorem exists_dropEnds_of_mem_bareLines {s l : List Char} (h : l ∈ bareLines s) :
    ∃ k, l = trim isGap k ∧ ∃ n ∈ dropEnds (lines (unifyBreaks s)), k <:+: n := by
  obtain ⟨k, hk, rfl⟩ := List.mem_map.1 ((ends_dropWhile _).2.2.subset h)
  exact ⟨k, rfl, infix_of_mem_dropMarkers hk⟩

theorem exists_of_mem_bareLines {s l : List Char} (h : l ∈ bareLines s) :
    ∃ k, l = trim isGap k ∧ ∃ n ∈ lines (unifyBreaks s), k <:+: n := by
  obtain ⟨k, hl, m, hm, hkm⟩ := exists_dropEnds_of_mem_bareLines h
  obtain ⟨n, hn, hmn⟩ := infix_of_mem_dropEnds hm
  exact ⟨k, hl, n, hn, hkm.trans hmn⟩

/-- Whatever a comment is, its lines without decoration hold no break and are trimmed. -/
theorem isLine_of_mem_bareLines {s l : List Char} (h : l ∈ bareLines s) : IsLine l := by
  obtain ⟨k, rfl, n, hn, hkn⟩ := exists_of_mem_bareLines h
  obtain ⟨hhead, hlast, htrim⟩ := ends_dropWhile (p := isGap) k
  obtain ⟨hbreak, hmem⟩ := of_mem_lines hn
  refine ⟨fun c hc => ?_, hhead, hlast⟩
  have hcn : c ∈ n := (htrim.trans hkn).subset hc
  constructor
  · rintro rfl
    exact notMem_return_unifyBreaks s (hmem _ hcn)
  · rintro rfl
    exact hbreak hcn

/-- Taking off the decoration adds nothing but breaks. -/
theorem mem_undecorate {comment : String} {c : Char} (h : c ∈ (undecorate comment).toList) :
    c = '\n' ∨ c ∈ comment.toList := by
  rw [undecorate, String.toList_ofList] at h
  rcases mem_unlines h with rfl | ⟨l, hl, hc⟩
  · exact Or.inl rfl
  · obtain ⟨k, rfl, n, hn, hkn⟩ := exists_of_mem_bareLines hl
    have hcn : c ∈ n := ((infix_trim k).trans hkn).subset hc
    exact mem_unifyBreaks ((of_mem_lines hn).2 c hcn)

theorem head?_bareLines (s : List Char) : (bareLines s).head? ≠ some [] := fun h =>
  absurd ((ends_dropWhile _).1 [] h) (by simp)

theorem getLast?_bareLines (s : List Char) : (bareLines s).getLast? ≠ some [] := fun h =>
  absurd ((ends_dropWhile _).2.1 [] h) (by simp)

end DocComment.Comment
