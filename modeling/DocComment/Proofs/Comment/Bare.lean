import DocComment.Comment.Written
import DocComment.Proofs.Comment.Rebuild
import Mathlib.Data.List.Infix
import Mathlib.Order.Bounds.Defs

/-! Taking off the decoration leaves a text as it is exactly when the text is bare. Each step
only shortens a line, so that a line comes out whole when no step takes anything off. What
comes out is tidy, and it is the lines from the first to the last of which anything is left. -/

namespace DocComment.Comment

open Text

variable {n i : Nat} {l : List Char} {ls : List (List Char)}

/-! ### Single lines -/

theorem isGap_eq_false_iff {c : Char} : isGap c = false ↔ c ≠ ' ' ∧ c ≠ '\t' := by
  simp [isGap]

theorem dropWhile_isGap_of_trim (h : trim isGap l = l) : l.dropWhile isGap = l :=
  dropWhile_append_stop (s := []) (by simp) (trim_eq_self_iff.1 h).1

theorem dropOpening_eq_self (h : trim isGap l = l) (ho : ¬ ['/', '*', '*'] <+: l) :
    dropOpening l = l := by
  rw [dropOpening, dropWhile_isGap_of_trim h]
  split
  · exact absurd (List.prefix_append ['/', '*', '*'] _) ho
  · rfl

theorem dropOpening_ne_self (ho : ['/', '*', '*'] <+: l) : dropOpening l ≠ l := by
  obtain ⟨r, rfl⟩ := ho
  intro h
  have hr : r = ['/', '*', '*'] ++ r := h
  exact absurd (List.self_eq_append_left.1 hr) (by simp)

theorem dropMarker_eq_self (h : trim isGap l = l) (hm : l.head? ≠ some '*') :
    dropMarker l = l := by
  rw [dropMarker, dropWhile_isGap_of_trim h]
  split
  · exact absurd rfl hm
  · rfl

theorem dropMarker_ne_self (hm : l.head? = some '*') : dropMarker l ≠ l := by
  obtain ⟨r, rfl⟩ := List.head?_eq_some_iff.1 hm
  intro h
  have hr : r = ['*'] ++ r := h
  exact absurd (List.self_eq_append_left.1 hr) (by simp)

/-- A line has no closing at its end when none of its ends is one. -/
theorem dropClosing_eq_self_iff : dropClosing l = l ↔ ∀ t, t <:+ l → isClosing t = false := by
  induction l with
  | nil => simp [dropClosing, isClosing]
  | cons c l ih =>
    simp only [List.suffix_cons_iff, forall_eq_or_imp, ← ih, dropClosing]
    split
    · simp_all
    · simp_all

theorem dropClosing_eq_self (h : trim isGap l = l) (hc : ¬ ['*', '/'] <:+ l) :
    dropClosing l = l := by
  refine dropClosing_eq_self_iff.2 fun t ht => ?_
  unfold isClosing
  split
  next r =>
    -- behind a closing the line would go on with a gap
    cases hr : r.getLast? with
    | none => exact absurd (List.getLast?_eq_none_iff.1 hr ▸ ht) hc
    | some c =>
      obtain ⟨k, rfl⟩ := ht
      have hlast : isGap c = false := (trim_eq_self_iff.1 h).2 c (by simp [List.getLast?_cons, hr])
      exact List.all_eq_false.2 ⟨c, List.mem_of_getLast? hr, by simp [hlast]⟩
  next => rfl

theorem dropClosing_ne_self (hc : ['*', '/'] <:+ l) : dropClosing l ≠ l := fun h =>
  absurd (dropClosing_eq_self_iff.1 h _ hc) (by decide)

/-- A line comes out whole when no step takes anything off it. -/
theorem stripLine_eq_self_iff :
    stripLine n i l = l ↔ trim isGap l = l ∧ (i = 0 → ¬ ['/', '*', '*'] <+: l) ∧
      (i + 1 = n → ¬ ['*', '/'] <:+ l) ∧ (i ≠ 0 → l.head? ≠ some '*') := by
  constructor
  · intro h
    -- each step shortens the line, so that the last gives it back only if all do
    have hopened : (if i = 0 then dropOpening l else l) <:+: l := by
      split
      · exact (dropOpening_suffix l).isInfix
      · exact List.infix_refl l
    simp only [stripLine] at h
    generalize ho : (if i = 0 then dropOpening l else l) = opened at h hopened
    have hclosed : (if i + 1 = n then dropClosing opened else opened) <:+: opened := by
      split
      · exact (dropClosing_begins opened).isInfix
      · exact List.infix_refl opened
    generalize hc : (if i + 1 = n then dropClosing opened else opened) = closed at h hclosed
    have hmarked : (if i = 0 then closed else dropMarker closed) <:+: closed := by
      split
      · exact List.infix_refl closed
      · exact (dropMarker_suffix closed).isInfix
    generalize hm : (if i = 0 then closed else dropMarker closed) = marked at h hmarked
    have htrim : l <:+: marked := h ▸ infix_trim marked
    obtain rfl : closed = l :=
      List.infix_antisymm (hclosed.trans hopened) (htrim.trans hmarked)
    obtain rfl : opened = closed := List.infix_antisymm hopened hclosed
    obtain rfl : marked = opened := List.infix_antisymm hmarked htrim
    refine ⟨h, fun h0 hp => ?_, fun hn hp => ?_, fun h0 hp => ?_⟩
    · exact dropOpening_ne_self hp (by simpa [h0] using ho)
    · exact dropClosing_ne_self hp (by simpa [hn] using hc)
    · exact dropMarker_ne_self hp (by simpa [h0] using hm)
  · rintro ⟨h, ho, hc, hm⟩
    have hopened : (if i = 0 then dropOpening l else l) = l :=
      ite_eq_right_iff.2 fun h0 => dropOpening_eq_self h (ho h0)
    have hclosed : (if i + 1 = n then dropClosing l else l) = l :=
      ite_eq_right_iff.2 fun hn => dropClosing_eq_self h (hc hn)
    have hmarked : (if i = 0 then l else dropMarker l) = l :=
      ite_eq_left_iff.2 fun h0 => dropMarker_eq_self h (hm h0)
    simp only [stripLine, hopened, hclosed, hmarked, h]

/-! ### Lines by their place -/

theorem modifyLast_eq_mapIdx (f : List Char → List Char) (ls : List (List Char)) :
    modifyLast f ls = ls.mapIdx fun i l => if i + 1 = ls.length then f l else l := by
  induction ls with
  | nil => rfl
  | cons l ls ih =>
    cases ls with
    | nil => simp [modifyLast]
    | cons m ms =>
      rw [modifyLast.eq_3 _ _ _ (by simp), ih, List.mapIdx_cons (l := m :: ms)]
      simp

/-- Each line is stripped by itself, by its place. -/
theorem map_trim_dropMarkers_dropEnds (ls : List (List Char)) :
    (dropMarkers (dropEnds ls)).map (trim isGap) = ls.mapIdx (stripLine ls.length) := by
  cases ls with
  | nil => rfl
  | cons l ls =>
    rw [dropEnds, modifyLast_eq_mapIdx, List.mapIdx_cons, List.mapIdx_cons, dropMarkers,
      List.map_cons, List.map_map]
    have hrest (i : Nat) (k : List Char) :
        trim isGap (dropMarker (if i + 1 + 1 = (l :: ls).length then dropClosing k else k)) =
          stripLine (l :: ls).length (i + 1) k := by
      simp [stripLine]
    refine congrArg₂ List.cons (by simp [stripLine]) (List.ext_getElem? fun i => ?_)
    simp only [List.getElem?_map, List.getElem?_mapIdx, Option.map_map, Function.comp_def]
    exact congrArg (Option.map · ls[i]?) (funext (hrest i))

theorem bareLines_eq (s : List Char) : bareLines s = dropEmptyEnds (strippedLines s) := by
  rw [bareLines, map_trim_dropMarkers_dropEnds]
  rfl

/-- Lines come out whole when they are trimmed and there is no opening before the first, no
closing behind the last and no marker before the others. -/
theorem mapIdx_stripLine_eq_self_iff :
    ls.mapIdx (stripLine ls.length) = ls ↔ (∀ l ∈ ls, trim isGap l = l) ∧
      (∀ l ∈ ls.head?, ¬ ['/', '*', '*'] <+: l) ∧ (∀ l ∈ ls.getLast?, ¬ ['*', '/'] <:+ l) ∧
      ∀ l ∈ ls.tail, l.head? ≠ some '*' := by
  have hplaces : ls.mapIdx (stripLine ls.length) = ls ↔
      ∀ i l, ls[i]? = some l → stripLine ls.length i l = l := by
    rw [List.mapIdx_eq_iff]
    refine forall_congr' fun i => ?_
    cases ls[i]? <;> simp [eq_comm]
  rw [hplaces]
  simp only [stripLine_eq_self_iff]
  constructor
  · intro h
    refine ⟨fun l hl => ?_, fun l hl => ?_, fun l hl => ?_, fun l hl => ?_⟩
    · obtain ⟨i, hi⟩ := List.mem_iff_getElem?.1 hl
      exact (h i l hi).1
    · rw [List.head?_eq_getElem?] at hl
      exact (h 0 l hl).2.1 rfl
    · have hpos : 0 < ls.length := List.length_pos_of_mem (List.mem_of_getLast? hl)
      rw [List.getLast?_eq_getElem?] at hl
      exact (h _ l hl).2.2.1 (Nat.sub_add_cancel hpos)
    · obtain ⟨i, hi⟩ := List.mem_iff_getElem?.1 hl
      rw [List.getElem?_tail] at hi
      exact (h (i + 1) l hi).2.2.2 (by simp)
  · rintro ⟨htrim, ho, hc, hm⟩ i l hi
    refine ⟨htrim l (List.mem_of_getElem? hi), ?_, ?_, ?_⟩
    · rintro rfl
      exact ho l (by rw [List.head?_eq_getElem?, hi]; rfl)
    · intro hn
      refine hc l ?_
      rw [List.getLast?_eq_getElem?, ← hn, Nat.add_sub_cancel, hi]
      rfl
    · intro h0
      obtain ⟨j, rfl⟩ := Nat.exists_eq_succ_of_ne_zero h0
      exact hm l (List.mem_iff_getElem?.2 ⟨j, by rw [List.getElem?_tail, hi]⟩)

/-! ### Empty lines at the ends -/

/-- Only empty lines are left out. -/
theorem exists_append_dropEmptyEnds (ls : List (List Char)) :
    ∃ front back, (∀ l ∈ front, l = []) ∧ (∀ l ∈ back, l = []) ∧
      ls = front ++ (dropEmptyEnds ls ++ back) := by
  refine ⟨ls.takeWhile List.isEmpty, (ls.dropWhile List.isEmpty).rtakeWhile List.isEmpty,
    fun l hl => ?_, fun l hl => ?_, ?_⟩
  · simpa using List.mem_takeWhile_imp hl
  · simpa using List.mem_rtakeWhile_imp hl
  · have hback : dropEmptyEnds ls ++ (ls.dropWhile List.isEmpty).rtakeWhile List.isEmpty =
        ls.dropWhile List.isEmpty := List.rdropWhile_append_rtakeWhile
    rw [hback, List.takeWhile_append_dropWhile]

theorem le_of_isFilled_append {front ks : List (List Char)} (hf : ∀ l ∈ front, l = [])
    (h : IsFilled (front ++ ks) i) : front.length ≤ i := by
  obtain ⟨l, hi, hl⟩ := h
  by_contra hlt
  rw [List.getElem?_append_left (Nat.lt_of_not_le hlt)] at hi
  exact hl (hf l (List.mem_of_getElem? hi))

theorem lt_of_isFilled_append {ks back : List (List Char)} (hb : ∀ l ∈ back, l = [])
    (h : IsFilled (ks ++ back) i) : i < ks.length := by
  obtain ⟨l, hi, hl⟩ := h
  by_contra hle
  rw [List.getElem?_append_right (Nat.le_of_not_lt hle)] at hi
  exact hl (hb l (List.mem_of_getElem? hi))

/-- What is left are the lines from the first to the last that are not empty. -/
theorem dropEmptyEnds_cases (ls : List (List Char)) :
    (dropEmptyEnds ls = [] ∧ ∀ i, ¬ IsFilled ls i) ∨
      ∃ first last, IsLeast {i | IsFilled ls i} first ∧ IsGreatest {i | IsFilled ls i} last ∧
        dropEmptyEnds ls = (ls.take (last + 1)).drop first := by
  obtain ⟨front, back, hf, hb, hls⟩ := exists_append_dropEmptyEnds ls
  obtain ⟨hhead, hlast, -⟩ := ends_dropWhile (p := List.isEmpty) ls
  change ∀ l ∈ (dropEmptyEnds ls).head?, l.isEmpty = false at hhead
  change ∀ l ∈ (dropEmptyEnds ls).getLast?, l.isEmpty = false at hlast
  generalize dropEmptyEnds ls = kept at hls hhead hlast
  subst hls
  have hle {i : Nat} (h : IsFilled (front ++ (kept ++ back)) i) : front.length ≤ i :=
    le_of_isFilled_append hf h
  have hlt {i : Nat} (h : IsFilled (front ++ (kept ++ back)) i) :
      i < (front ++ kept).length := by
    rw [← List.append_assoc] at h
    exact lt_of_isFilled_append hb h
  by_cases hne : kept = []
  · subst hne
    refine Or.inl ⟨rfl, fun i h => ?_⟩
    have hi := hlt h
    rw [List.append_nil] at hi
    exact absurd (hle h) (Nat.not_le_of_lt hi)
  · have hpos : 0 < kept.length := List.length_pos_iff.2 hne
    have hend : front.length + (kept.length - 1) + 1 = (front ++ kept).length := by
      rw [List.length_append]
      omega
    have hfirst : IsFilled (front ++ (kept ++ back)) front.length := by
      refine ⟨kept.head hne, ?_, by simpa using hhead _ (List.head?_eq_some_head hne)⟩
      rw [List.getElem?_append_right le_rfl, Nat.sub_self, List.getElem?_append_left hpos,
        ← List.head?_eq_getElem?, List.head?_eq_some_head hne]
    have hfinal : IsFilled (front ++ (kept ++ back)) (front.length + (kept.length - 1)) := by
      refine ⟨kept.getLast hne, ?_, by simpa using hlast _ (List.getLast?_eq_some_getLast hne)⟩
      rw [List.getElem?_append_right (Nat.le_add_right _ _), Nat.add_sub_cancel_left,
        List.getElem?_append_left (Nat.sub_one_lt_of_lt hpos), ← List.getLast?_eq_getElem?,
        List.getLast?_eq_some_getLast hne]
    refine Or.inr ⟨front.length, front.length + (kept.length - 1), ⟨hfirst, fun i => hle⟩,
      ⟨hfinal, fun i h => Nat.le_of_lt_succ ((hlt h).trans_eq hend.symm)⟩, ?_⟩
    rw [hend, ← List.append_assoc, List.take_left, List.drop_left]

theorem infix_dropEmptyEnds (ls : List (List Char)) : dropEmptyEnds ls <:+: ls :=
  (ends_dropWhile ls).2.2

theorem dropEmptyEnds_eq_self (hh : ls.head? ≠ some []) (hl : ls.getLast? ≠ some []) :
    dropEmptyEnds ls = ls := by
  simpa using dropEmptyEnds_surrounded (a := []) (b := []) (by simp) (by simp) hh hl

/-! ### Any text -/

theorem lines_undecorate {s : String} (h : bareLines s.toList ≠ []) :
    lines (undecorate s).toList = bareLines s.toList := by
  rw [undecorate, String.toList_ofList]
  exact lines_unlines h fun l hl => (isLine_of_mem_bareLines hl).notMem_lf

theorem undecorate_eq_empty {s : String} (h : bareLines s.toList = []) : undecorate s = "" := by
  rw [undecorate, h]
  rfl

theorem tidyText_undecorate (s : String) : TidyText (undecorate s) :=
  tidyText_unlines (fun _ hl => isLine_of_mem_bareLines hl) (head?_bareLines _)
    (getLast?_bareLines _)

theorem bareText_empty : BareText "" where
  toTidyText := tidyText_undecorate ""
  opening := by decide
  closing := by decide
  marker := by decide

theorem TidyText.trim_line {s : String} (h : TidyText s) :
    ∀ l ∈ lines s.toList, trim isGap l = l := fun l hl =>
  trim_eq_self_iff.2 ⟨fun c hc => isGap_eq_false_iff.2 (h.line_ends l hl c (.inl hc)),
    fun c hc => isGap_eq_false_iff.2 (h.line_ends l hl c (.inr hc))⟩

theorem bareText_of_undecorate {s : String} (h : undecorate s = s) : BareText s := by
  by_cases hb : bareLines s.toList = []
  · rw [← h, undecorate_eq_empty hb]
    exact bareText_empty
  · have htidy : TidyText s := h ▸ tidyText_undecorate s
    have hlines := lines_undecorate hb
    rw [h, bareLines_eq, strippedLines, unifyBreaks_of_notMem htidy.noReturn] at hlines
    -- as many lines are left as there were, so that none is left out
    have hall := (infix_dropEmptyEnds _).eq_of_length (by rw [← hlines, List.length_mapIdx])
    rw [← hlines] at hall
    obtain ⟨-, ho, hc, hm⟩ := mapIdx_stripLine_eq_self_iff.1 hall.symm
    exact { toTidyText := htidy, opening := ho, closing := hc, marker := hm }

theorem undecorate_of_bareText {s : String} (h : BareText s) : undecorate s = s := by
  have hstripped : strippedLines s.toList = lines s.toList := by
    rw [strippedLines, unifyBreaks_of_notMem h.noReturn]
    exact mapIdx_stripLine_eq_self_iff.2 ⟨h.trim_line, h.opening, h.closing, h.marker⟩
  by_cases he : s = ""
  · subst he
    rfl
  · have hne : s.toList ≠ [] := by simpa using he
    have hhead : s.toList.head? ≠ some '\n' := fun hc => (h.ends _ (.inl hc)).2.2 rfl
    have hlast : s.toList.getLast? ≠ some '\n' := fun hc => (h.ends _ (.inr hc)).2.2 rfl
    rw [undecorate, bareLines_eq, hstripped,
      dropEmptyEnds_eq_self (head?_lines hne hhead) (getLast?_lines hne hlast), unlines_lines,
      String.ofList_toList]

/-- Taking off the decoration leaves a text as it is exactly when the text is bare. What comes
out of any text is tidy, and its lines are what is left of the lines from the first to the
last of which anything is left. -/
theorem undecorate_bare :
    (∀ y : String, undecorate y = y ↔ BareText y) ∧
      ∀ x : String, TidyText (undecorate x) ∧
        ((undecorate x = "" ∧ ∀ i, ¬ IsFilled (strippedLines x.toList) i) ∨
          ∃ first last, IsLeast {i | IsFilled (strippedLines x.toList) i} first ∧
            IsGreatest {i | IsFilled (strippedLines x.toList) i} last ∧
            lines (undecorate x).toList =
              ((strippedLines x.toList).take (last + 1)).drop first ∧
            (lines (undecorate x).toList).length = last + 1 - first) := by
  refine ⟨fun y => ⟨bareText_of_undecorate, undecorate_of_bareText⟩,
    fun x => ⟨tidyText_undecorate x, ?_⟩⟩
  rcases dropEmptyEnds_cases (strippedLines x.toList) with
    ⟨hnil, hnone⟩ | ⟨first, last, hfirst, hlast, hlines⟩
  · rw [← bareLines_eq] at hnil
    exact Or.inl ⟨undecorate_eq_empty hnil, hnone⟩
  · obtain ⟨l, hl, -⟩ := hlast.1
    have hlt : last < (strippedLines x.toList).length := (List.getElem?_eq_some_iff.1 hl).1
    have hle : first ≤ last := hfirst.2 hlast.1
    have hlen : (((strippedLines x.toList).take (last + 1)).drop first).length =
        last + 1 - first := by
      rw [List.length_drop, List.length_take, Nat.min_eq_left hlt]
    rw [← bareLines_eq] at hlines
    have hb : bareLines x.toList ≠ [] := by
      intro hb
      rw [← hlines, hb, List.length_nil] at hlen
      omega
    rw [← hlines] at hlen
    refine Or.inr ⟨first, last, hfirst, hlast, ?_, ?_⟩
    · rw [lines_undecorate hb, hlines]
    · rw [lines_undecorate hb, hlen]

/-- Openings, closings and stars in other places are part of the text. -/
example : BareText "* a /**\n/** b */ *" := bareText_of_undecorate (by decide +kernel)

end DocComment.Comment
