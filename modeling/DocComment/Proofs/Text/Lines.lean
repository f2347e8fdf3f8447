import DocComment.Comment.Layout
import Mathlib.Data.List.DropRight
import Mathlib.Data.List.TakeWhile

/-! Texts cut into lines and trimmed. Lines with a break behind each are what a text is
cut into, a line ending of any kind is one break, and what surrounds a line is trimmed
off when it holds nothing else. Where two characters stand next to each other is told by infixes. -/

namespace DocComment.Text

open Comment

/-- A list without what surrounds it, when its own ends are to stay. -/
theorem dropWhile_ends {α : Type} {p : α → Bool} {a l b : List α} (ha : ∀ x ∈ a, p x = true)
    (hb : ∀ x ∈ b, p x = true) (hh : ∀ x ∈ l.head?, p x = false)
    (hl : ∀ x ∈ l.getLast?, p x = false) :
    (((a ++ (l ++ b)).dropWhile p).reverse.dropWhile p).reverse = l := by
  rw [List.dropWhile_append_of_pos ha]
  cases l with
  | nil =>
    have hd : b.dropWhile p = [] := List.dropWhile_eq_nil_iff.2 hb
    simp [hd]
  | cons c l =>
    have hc : p c = false := hh c (by simp)
    have hd : (c :: l ++ b).dropWhile p = c :: l ++ b := by simp [hc]
    have hr : ((c :: l).reverse).dropWhile p = (c :: l).reverse := by
      cases he : (c :: l).reverse with
      | nil => rfl
      | cons d m =>
        have hlast : (c :: l).getLast? = some d := by
          rw [List.getLast?_eq_head?_reverse, he]
          rfl
        simp [hl d hlast]
    rw [hd, List.reverse_append,
      List.dropWhile_append_of_pos fun x hx => hb x (List.mem_reverse.1 hx), hr,
      List.reverse_reverse]

/-- What is left of a list behind a run does not go on with it. -/
theorem head?_dropWhile_eq_false {α : Type} {p : α → Bool} (s : List α) :
    ∀ x ∈ (s.dropWhile p).head?, p x = false := by
  intro x hx
  have hstop := List.head?_dropWhile_not p s
  rw [hx] at hstop
  simpa using hstop

/-- What is left without the items of a class at both ends begins and ends with none. -/
theorem ends_dropWhile {α : Type} {p : α → Bool} (l : List α) :
    (∀ x ∈ ((l.dropWhile p).reverse.dropWhile p).reverse.head?, p x = false) ∧
      (∀ x ∈ ((l.dropWhile p).reverse.dropWhile p).reverse.getLast?, p x = false) ∧
      ((l.dropWhile p).reverse.dropWhile p).reverse <:+: l := by
  have hpre : ((l.dropWhile p).reverse.dropWhile p).reverse <+: l.dropWhile p :=
    List.rdropWhile_prefix p (l.dropWhile p)
  refine ⟨fun x hx => head?_dropWhile_eq_false l x ?_, fun x hx => ?_, hpre.isInfix.trans
    (List.dropWhile_suffix p).isInfix⟩
  · obtain ⟨r, hr⟩ := hpre
    rw [← hr]
    exact List.mem_head?_append_of_mem_head? hx
  · rw [List.getLast?_reverse] at hx
    exact head?_dropWhile_eq_false _ x hx

theorem infix_trim {p : Char → Bool} (s : List Char) : trim p s <:+: s := (ends_dropWhile s).2.2

/-- A run of characters of a class that something else follows. -/
theorem takeWhile_append_stop {p : Char → Bool} {s r : List Char} (hs : ∀ c ∈ s, p c = true)
    (hr : ∀ c ∈ r.head?, p c = false) : (s ++ r).takeWhile p = s := by
  rw [List.takeWhile_append_of_pos hs]
  cases r with
  | nil => simp
  | cons c r => simp [hr c rfl]

theorem dropWhile_append_stop {p : Char → Bool} {s r : List Char} (hs : ∀ c ∈ s, p c = true)
    (hr : ∀ c ∈ r.head?, p c = false) : (s ++ r).dropWhile p = r := by
  have h := List.takeWhile_append_dropWhile (p := p) (l := s ++ r)
  rw [takeWhile_append_stop hs hr] at h
  exact List.append_cancel_left h

/-- A text without a character ends in front of it. -/
theorem span_append_stop {x : Char} {s r : List Char} (hs : x ∉ s) (hr : r.head? = some x) :
    (s ++ r).takeWhile (· != x) = s ∧ (s ++ r).dropWhile (· != x) = r := by
  have hin : ∀ c ∈ s, (c != x) = true := by
    intro c hc
    simpa using ne_of_mem_of_not_mem hc hs
  have hout : ∀ c ∈ r.head?, (c != x) = false := by simp [hr]
  exact ⟨takeWhile_append_stop hin hout, dropWhile_append_stop hin hout⟩

theorem trim_surrounded {p : Char → Bool} {a l b : List Char} (ha : ∀ c ∈ a, p c = true)
    (hb : ∀ c ∈ b, p c = true) (hh : ∀ c ∈ l.head?, p c = false)
    (hl : ∀ c ∈ l.getLast?, p c = false) : trim p (a ++ (l ++ b)) = l :=
  dropWhile_ends ha hb hh hl

theorem trim_eq_nil {p : Char → Bool} {s : List Char} (h : ∀ c ∈ s, p c = true) :
    trim p s = [] := by
  have hd : s.dropWhile p = [] := List.dropWhile_eq_nil_iff.2 h
  simp [trim, hd]

/-- A text is what is left of it, surrounded by characters of the class. -/
theorem exists_append_trim (p : Char → Bool) (s : List Char) : ∃ a b, s = a ++ (trim p s ++ b) ∧
    (∀ c ∈ a, p c = true) ∧ ∀ c ∈ b, p c = true := by
  refine ⟨s.takeWhile p, ((s.dropWhile p).reverse.takeWhile p).reverse, ?_, ?_, ?_⟩
  · rw [trim, ← List.reverse_append, List.takeWhile_append_dropWhile, List.reverse_reverse,
      List.takeWhile_append_dropWhile]
  · exact fun c hc => List.mem_takeWhile_imp hc
  · exact fun c hc => List.mem_takeWhile_imp (List.mem_reverse.1 hc)

theorem trim_eq_self_iff {p : Char → Bool} {s : List Char} :
    trim p s = s ↔ (∀ c ∈ s.head?, p c = false) ∧ ∀ c ∈ s.getLast?, p c = false := by
  constructor
  · intro h
    obtain ⟨hhead, hlast, -⟩ := ends_dropWhile (p := p) s
    rw [trim] at h
    rw [h] at hhead hlast
    exact ⟨hhead, hlast⟩
  · rintro ⟨hhead, hlast⟩
    simpa using trim_surrounded (a := []) (b := []) (by simp) (by simp) hhead hlast

theorem lines_of_notMem {l : List Char} (h : '\n' ∉ l) : lines l = [l] := by
  induction l with
  | nil => rfl
  | cons c l ih =>
    simp only [List.mem_cons, not_or] at h
    simp [lines, Ne.symm h.1, ih h.2]

theorem lines_append {l : List Char} (h : '\n' ∉ l) (r : List Char) :
    lines (l ++ '\n' :: r) = l :: lines r := by
  induction l with
  | nil => simp [lines]
  | cons c l ih =>
    simp only [List.mem_cons, not_or] at h
    simp [lines, Ne.symm h.1, ih h.2]

theorem lines_cons {c : Char} (hc : c ≠ '\n') (s : List Char) :
    ∃ l ls, lines s = l :: ls ∧ lines (c :: s) = (c :: l) :: ls := by
  obtain ⟨l, ls, hs⟩ := List.exists_cons_of_ne_nil (lines_ne_nil s)
  exact ⟨l, ls, hs, by simp [lines, hc, hs]⟩

/-- A text on one line goes with the first line behind it. -/
theorem lines_append_left {l : List Char} (h : '\n' ∉ l) (s : List Char) :
    ∃ k ks, lines s = k :: ks ∧ lines (l ++ s) = (l ++ k) :: ks := by
  induction l with
  | nil =>
    obtain ⟨k, ks, hs⟩ := List.exists_cons_of_ne_nil (lines_ne_nil s)
    exact ⟨k, ks, hs, hs⟩
  | cons c l ih =>
    simp only [List.mem_cons, not_or] at h
    obtain ⟨k, ks, hs, hls⟩ := ih h.2
    exact ⟨k, ks, hs, by simp [lines, Ne.symm h.1, hls]⟩

/-- A text on one line goes with the last line before it. -/
theorem lines_append_right (s : List Char) {l : List Char} (h : '\n' ∉ l) :
    ∃ ks k, lines s = ks ++ [k] ∧ lines (s ++ l) = ks ++ [k ++ l] := by
  induction s with
  | nil => exact ⟨[], [], rfl, lines_of_notMem h⟩
  | cons c s ih =>
    obtain ⟨ks, k, hs, hsl⟩ := ih
    by_cases hc : c = '\n'
    · exact ⟨[] :: ks, k, by simp [lines, hc, hs], by simp [lines, hc, hsl]⟩
    · cases ks with
      | nil => exact ⟨[], c :: k, by simp [lines, hc, hs], by simp [lines, hc, hsl]⟩
      | cons j ks => exact ⟨(c :: j) :: ks, k, by simp [lines, hc, hs], by simp [lines, hc, hsl]⟩

theorem head?_lines {s : List Char} (hs : s ≠ []) (h : s.head? ≠ some '\n') :
    (lines s).head? ≠ some [] := by
  cases s with
  | nil => exact absurd rfl hs
  | cons c s =>
    obtain ⟨l, ls, -, hcons⟩ := lines_cons (fun hc => h (congrArg some hc)) s
    simp [hcons]

theorem getLast?_lines {s : List Char} (hs : s ≠ []) (h : s.getLast? ≠ some '\n') :
    (lines s).getLast? ≠ some [] := by
  obtain ⟨t, c, rfl⟩ := (List.eq_nil_or_concat s).resolve_left hs
  have hc : '\n' ∉ [c] := by
    intro hm
    obtain rfl : '\n' = c := List.mem_singleton.1 hm
    exact h (by simp)
  obtain ⟨ks, k, -, hlines⟩ := lines_append_right t hc
  simp [hlines]

/-- A line of a text holds no break and nothing that the text does not hold. -/
theorem of_mem_lines {s l : List Char} (h : l ∈ lines s) : '\n' ∉ l ∧ ∀ c ∈ l, c ∈ s := by
  induction s generalizing l with
  | nil => simp_all [lines]
  | cons c s ih =>
    by_cases hc : c = '\n'
    · subst hc
      rcases List.mem_cons.1 (by simpa [lines] using h) with rfl | h
      · simp
      · exact ⟨(ih h).1, fun d hd => List.mem_cons_of_mem _ ((ih h).2 d hd)⟩
    · obtain ⟨m, ms, hs, hcons⟩ := lines_cons hc s
      rw [hs] at ih
      rw [hcons] at h
      rcases List.mem_cons.1 h with rfl | h
      · obtain ⟨hn, hm⟩ := ih (List.mem_cons_self (a := m))
        exact ⟨by simp [Ne.symm hc, hn], List.forall_mem_cons.2
          ⟨by simp, fun d hd => List.mem_cons_of_mem _ (hm d hd)⟩⟩
      · obtain ⟨hn, hm⟩ := ih (List.mem_cons_of_mem m h)
        exact ⟨hn, fun d hd => List.mem_cons_of_mem _ (hm d hd)⟩

theorem unifyBreaks_cons {c : Char} (h : c ≠ '\r') (r : List Char) :
    unifyBreaks (c :: r) = c :: unifyBreaks r :=
  unifyBreaks.eq_3 c r (fun _ hc _ => h hc) h

/-- A lone return is a break. -/
theorem unifyBreaks_return {r : List Char} (h : r.head? ≠ some '\n') :
    unifyBreaks ('\r' :: r) = '\n' :: unifyBreaks r := by
  rw [unifyBreaks.eq_2]
  rintro q rfl
  exact h rfl

theorem unifyBreaks_append {l : List Char} (h : '\r' ∉ l) (r : List Char) :
    unifyBreaks (l ++ r) = l ++ unifyBreaks r := by
  induction l with
  | nil => rfl
  | cons c l ih =>
    simp only [List.mem_cons, not_or] at h
    rw [List.cons_append, unifyBreaks_cons (Ne.symm h.1), ih h.2]
    rfl

theorem unifyBreaks_of_notMem {s : List Char} (h : '\r' ∉ s) : unifyBreaks s = s := by
  simpa [unifyBreaks] using unifyBreaks_append h []

/-- Two parts of a text are converted apart when the second begins with no break that could
belong to a return before it. -/
theorem unifyBreaks_append_of_head? (l : List Char) {r : List Char} (h : r.head? ≠ some '\n') :
    unifyBreaks (l ++ r) = unifyBreaks l ++ unifyBreaks r := by
  fun_induction unifyBreaks l with
  | case1 l ih => simp [unifyBreaks, ih]
  | case2 l hl ih =>
    have hhead : (l ++ r).head? ≠ some '\n' := by
      cases l with
      | nil => simpa using h
      | cons c l =>
        intro hc
        exact hl l (by simpa using hc)
    rw [List.cons_append, unifyBreaks_return hhead, ih, List.cons_append]
  | case3 c l _ hc ih => rw [List.cons_append, unifyBreaks_cons hc, ih, List.cons_append]
  | case4 => rfl

theorem notMem_return_unifyBreaks (s : List Char) : '\r' ∉ unifyBreaks s := by
  fun_induction unifyBreaks s with
  | case1 r ih => simpa using ih
  | case2 r _ ih => simpa using ih
  | case3 c r _ hc ih => simpa [Ne.symm hc] using ih
  | case4 => simp

theorem mem_unifyBreaks {c : Char} {s : List Char} (h : c ∈ unifyBreaks s) :
    c = '\n' ∨ c ∈ s := by
  fun_induction unifyBreaks s with
  | case1 r ih =>
    exact (List.mem_cons.1 h).elim Or.inl fun h => (ih h).imp id fun h => by simp [h]
  | case2 r _ ih =>
    exact (List.mem_cons.1 h).elim Or.inl fun h => (ih h).imp id fun h => by simp [h]
  | case3 d r _ _ ih =>
    rcases List.mem_cons.1 h with rfl | h
    · exact Or.inr (by simp)
    · exact (ih h).imp id fun h => by simp [h]
  | case4 => exact absurd h (by simp)

/-- A character other than a break begins a text when it begins the converted text. -/
theorem head?_unifyBreaks {c : Char} (hr : c ≠ '\r') (hn : c ≠ '\n') (s : List Char) :
    (unifyBreaks s).head? = some c ↔ s.head? = some c := by
  fun_induction unifyBreaks s with
  | case1 => simp [Ne.symm hr, Ne.symm hn]
  | case2 => simp [Ne.symm hr, Ne.symm hn]
  | case3 => simp
  | case4 => simp

/-- Converted breaks are not converted again. -/
theorem unifyBreaks_unifyBreaks (s : List Char) : unifyBreaks (unifyBreaks s) = unifyBreaks s :=
  unifyBreaks_of_notMem (notMem_return_unifyBreaks s)

/-- Any line ending is one break, where no break follows that could belong to it. -/
theorem unifyBreaks_break {e : List Char} (he : IsBreak e) {r : List Char}
    (hr : r.head? ≠ some '\n') : unifyBreaks (e ++ r) = '\n' :: unifyBreaks r := by
  cases he with
  | lf => simp [unifyBreaks]
  | crlf => simp [unifyBreaks]
  | cr => exact unifyBreaks_return hr

theorem unlines_cons (l : List Char) {ls : List (List Char)} (h : ls ≠ []) :
    unlines (l :: ls) = l ++ '\n' :: unlines ls := by
  cases ls with
  | nil => exact absurd rfl h
  | cons m ms => rfl

/-- A text begins with its first line. -/
theorem unlines_eq_line_append (l : List Char) (ls : List (List Char)) :
    ∃ r, unlines (l :: ls) = l ++ r := by
  cases ls with
  | nil => exact ⟨[], (List.append_nil l).symm⟩
  | cons m ms => exact ⟨_, rfl⟩

theorem head?_unlines {l : List Char} (hl : l ≠ []) (hn : '\n' ∉ l) (ls : List (List Char))
    (r : List Char) : (unlines (l :: ls) ++ r).head? ≠ some '\n' := by
  obtain ⟨q, hq⟩ := unlines_eq_line_append l ls
  cases l with
  | nil => exact absurd rfl hl
  | cons c l =>
    intro h
    have hc : c = '\n' := by simpa [hq] using h
    exact hn (by simp [hc])

theorem lines_unlines {ls : List (List Char)} (hs : ls ≠ []) (hn : ∀ l ∈ ls, '\n' ∉ l) :
    lines (unlines ls) = ls := by
  induction ls with
  | nil => exact absurd rfl hs
  | cons l ls ih =>
    obtain ⟨hl, hls⟩ := List.forall_mem_cons.1 hn
    cases ls with
    | nil => exact lines_of_notMem hl
    | cons m ms => rw [unlines_cons l (by simp), lines_append hl, ih (by simp) hls]

theorem mem_unlines {ls : List (List Char)} {c : Char} (h : c ∈ unlines ls) :
    c = '\n' ∨ ∃ l ∈ ls, c ∈ l := by
  induction ls with
  | nil => exact absurd h (by simp [unlines])
  | cons l ls ih =>
    cases ls with
    | nil => exact Or.inr ⟨l, by simp, h⟩
    | cons m ms =>
      rw [unlines_cons l (by simp), List.mem_append, List.mem_cons] at h
      rcases h with h | rfl | h
      · exact Or.inr ⟨l, by simp, h⟩
      · exact Or.inl rfl
      · obtain hc | ⟨k, hk, hc⟩ := ih h
        · exact Or.inl hc
        · exact Or.inr ⟨k, List.mem_cons_of_mem _ hk, hc⟩

theorem infix_unlines {ls : List (List Char)} {l : List Char} (h : l ∈ ls) : l <:+: unlines ls := by
  induction ls with
  | nil => exact absurd h (by simp)
  | cons k ls ih =>
    cases ls with
    | nil => exact List.mem_singleton.1 h ▸ List.infix_refl k
    | cons m ms =>
      rw [unlines_cons k (by simp)]
      rcases List.mem_cons.1 h with rfl | h
      · exact (List.prefix_append l _).isInfix
      · exact (ih h).trans ⟨k ++ ['\n'], [], by simp⟩

theorem infix_of_mem_lines {s l : List Char} (h : l ∈ lines s) : l <:+: s :=
  unlines_lines s ▸ infix_unlines h

theorem unlines_append {ls ms : List (List Char)} (hl : ls ≠ []) (hm : ms ≠ []) :
    unlines (ls ++ ms) = unlines ls ++ '\n' :: unlines ms := by
  induction ls with
  | nil => exact absurd rfl hl
  | cons l ls ih =>
    cases ls with
    | nil => exact unlines_cons l hm
    | cons k ks =>
      rw [List.cons_append, unlines_cons l (by simp), ih (by simp), unlines_cons l (by simp)]
      simp

/-- Empty lines are written as breaks. -/
theorem unlines_replicate (n : Nat) {ls : List (List Char)} (h : ls ≠ []) :
    unlines (List.replicate n [] ++ ls) = List.replicate n '\n' ++ unlines ls := by
  induction n with
  | zero => rfl
  | succ n ih =>
    rw [List.replicate_succ, List.cons_append, unlines_cons [] (by simp [h]), ih]
    rfl

/-- A line is cut off at its break. -/
theorem lines_unifyBreaks_break {l e : List Char} (hr : '\r' ∉ l) (hn : '\n' ∉ l) (he : IsBreak e)
    {r : List Char} (h : r.head? ≠ some '\n') :
    lines (unifyBreaks (l ++ (e ++ r))) = l :: lines (unifyBreaks r) := by
  rw [unifyBreaks_append hr, unifyBreaks_break he h, lines_append hn]

/-! ### The first line -/

/-- No break stands inside the first line. -/
theorem notMem_break_of_cutLine {s x y : List Char} (h : (cutLine s).1 = x ++ y) (hy : y ≠ []) :
    '\n' ∉ x := by
  induction s generalizing x with
  | nil =>
    obtain ⟨rfl, -⟩ := List.append_eq_nil_iff.1 h.symm
    simp
  | cons c s ih =>
    cases x with
    | nil => simp
    | cons d x =>
      by_cases hc : c = '\n'
      · rw [cutLine, if_pos hc] at h
        obtain ⟨-, hnil⟩ : c = d ∧ [] = x ++ y := by simpa using h
        exact absurd (List.append_eq_nil_iff.1 hnil.symm).2 hy
      · rw [cutLine, if_neg hc] at h
        obtain ⟨rfl, hs⟩ : c = d ∧ (cutLine s).1 = x ++ y := by simpa using h
        simpa [Ne.symm hc] using ih hs

theorem getLast?_cutLine {s : List Char} (h : (cutLine s).2 ≠ []) :
    (cutLine s).1.getLast? = some '\n' := by
  induction s with
  | nil => exact absurd rfl h
  | cons c s ih =>
    by_cases hc : c = '\n'
    · simp [cutLine, hc]
    · simp only [cutLine, hc, if_false] at h ⊢
      rw [List.getLast?_cons, ih h]
      rfl

/-- A text on one line goes with the line it stands on. -/
theorem cutLine_append_of_notMem {l : List Char} (h : '\n' ∉ l) (r : List Char) :
    (cutLine (l ++ r)).2 = (cutLine r).2 := by
  induction l with
  | nil => rfl
  | cons c l ih =>
    simp only [List.mem_cons, not_or] at h
    rw [List.cons_append, cutLine, if_neg (Ne.symm h.1)]
    exact ih h.2

/-- A break behind a text ends its last line. -/
theorem cutLine_append_break (s b : List Char) :
    (cutLine (s ++ '\n' :: b)).2 = (cutLine s).2 ++ '\n' :: b ∨
      (cutLine s).2 = [] ∧ (cutLine (s ++ '\n' :: b)).2 = b := by
  induction s with
  | nil => exact Or.inr ⟨rfl, rfl⟩
  | cons c s ih =>
    by_cases hc : c = '\n'
    · exact Or.inl (by simp [cutLine, hc])
    · simpa only [List.cons_append, cutLine, hc, if_false] using ih

/-! ### Characters next to each other -/

section Pair

variable {a b c : Char} {s t : List Char}

theorem pair_infix_cons : [a, b] <:+: c :: s ↔ a = c ∧ s.head? = some b ∨ [a, b] <:+: s := by
  rw [List.infix_cons_iff, List.cons_prefix_cons]
  cases s with
  | nil => simp
  | cons d s => simp [@eq_comm _ b d]

/-- A pair does not stand on both sides of another character. -/
theorem pair_infix_append_cons (ha : a ≠ c) (hb : b ≠ c) :
    [a, b] <:+: s ++ c :: t ↔ [a, b] <:+: s ∨ [a, b] <:+: t := by
  induction s with
  | nil => simp [pair_infix_cons, ha]
  | cons d s ih =>
    have hhead : (s ++ c :: t).head? = some b ↔ s.head? = some b := by
      cases s <;> simp [Ne.symm hb]
    rw [List.cons_append, pair_infix_cons, pair_infix_cons, hhead, ih, or_assoc]

end Pair

end DocComment.Text
