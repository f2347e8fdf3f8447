import DocComment.TypeExpr.Grammar
import DocComment.TypeExpr.Name

/-! What the words of type expressions take from a text. A keyword and a class name are
read exactly where they stand, provided that what follows a class name cannot continue
it; pairs of brackets are counted up to the first that is not complete. -/

namespace DocComment.TypeExpr

open Text Grammar

/-! ### Keywords -/

/-- No keyword begins another. -/
theorem keywords_prefixFree :
    ∀ k ∈ keywords, ∀ l ∈ keywords, k.toList <+: l.toList → k = l := by decide

theorem keyword_eq_of_append {k l : String} (hk : k ∈ keywords) (hl : l ∈ keywords)
    {r q : List Char} (h : k.toList ++ r = l.toList ++ q) : k = l := by
  rcases List.prefix_or_prefix_of_prefix (List.prefix_append k.toList r)
    (h ▸ List.prefix_append l.toList q) with hp | hp
  · exact keywords_prefixFree k hk l hl hp
  · exact (keywords_prefixFree l hl k hk hp).symm

theorem mem_keywords_of_keyword? {s r : List Char} {k : String} (h : keyword? s = some (k, r)) :
    k ∈ keywords ∧ s = k.toList ++ r := by
  obtain ⟨l, hl, hs⟩ := List.exists_of_findSome?_eq_some h
  obtain ⟨q, hq, he⟩ := Option.map_eq_some_iff.1 hs
  simp only [Prod.mk.injEq] at he
  obtain ⟨rfl, rfl⟩ := he
  exact ⟨hl, after?_eq_some_iff.1 hq⟩

theorem keyword?_append {k : String} (hk : k ∈ keywords) (r : List Char) :
    keyword? (k.toList ++ r) = some (k, r) := by
  cases h : keyword? (k.toList ++ r) with
  | none =>
    have := List.findSome?_eq_none_iff.1 h k hk
    rw [after?_eq_some_iff.2 rfl] at this
    exact absurd this (by simp)
  | some p =>
    obtain ⟨l, q⟩ := p
    obtain ⟨hl, he⟩ := mem_keywords_of_keyword? h
    obtain rfl := keyword_eq_of_append hk hl he
    rw [List.append_cancel_left he]

theorem keyword?_eq_none_iff {s : List Char} :
    keyword? s = none ↔ ∀ k ∈ keywords, ¬ k.toList <+: s := by
  constructor
  · rintro h k hk ⟨r, rfl⟩
    rw [keyword?_append hk] at h
    exact absurd h (by simp)
  · intro h
    cases hs : keyword? s with
    | none => rfl
    | some p =>
      obtain ⟨hk, he⟩ := mem_keywords_of_keyword? hs
      exact absurd ⟨p.2, he.symm⟩ (h p.1 hk)

/-- A class name stays no keyword in front of a character that no keyword has. -/
theorem keyword?_append_eq_none {n r : List Char} (hn : ∀ k ∈ keywords, ¬ k.toList <+: n)
    (hr : ∀ c ∈ r.head?, ∀ k ∈ keywords, c ∉ k.toList) : keyword? (n ++ r) = none := by
  rw [keyword?_eq_none_iff]
  rintro k hk ⟨q, hq⟩
  rcases List.append_eq_append_iff.1 hq with ⟨m, hm, -⟩ | ⟨m, hm, hr'⟩
  · exact hn k hk ⟨m, hm.symm⟩
  · cases m with
    | nil => exact hn k hk ⟨[], by simpa using hm⟩
    | cons c m =>
      have hc : c ∈ r.head? := by simp [hr']
      exact hr c hc k hk (by simp [hm])

/-! ### Class names -/

/-- A class name that may begin with a keyword. -/
def IsName (s : List Char) : Prop := IsPath s ∨ ∃ p, s = '\\' :: p ∧ IsPath p

/-- What follows does not continue a class name. -/
def EndsName (r : List Char) : Prop := ∀ c ∈ r.head?, isLabelPart c = false ∧ c ≠ '\\'

theorem isLabelPart_of_isLabelStart {c : Char} (h : isLabelStart c = true) :
    isLabelPart c = true := by
  simp [isLabelPart, h]

theorem isLabelPart_backslash : isLabelPart '\\' = false := by decide

theorem isLabel_concat {l : List Char} (h : IsLabel l) {c : Char} (hc : isLabelPart c = true) :
    IsLabel (l ++ [c]) := by
  obtain ⟨d, r, rfl, hd, hr⟩ := h
  refine ⟨d, r ++ [c], rfl, hd, fun e he => ?_⟩
  rcases List.mem_append.1 he with he | he
  · exact hr e he
  · rw [List.mem_singleton.1 he]
    exact hc

theorem isLabel_singleton {c : Char} (h : isLabelStart c = true) : IsLabel [c] :=
  ⟨c, [], rfl, h, by simp⟩

theorem classTail_append (s : List Char) : (classTail s).1 ++ (classTail s).2 = s := by
  fun_induction classTail s with
  | case1 c r h name q hq ih => simpa [hq] using ih
  | case2 => rfl
  | case3 c r hr h name q hq ih => simpa [hq] using ih
  | case4 => rfl
  | case5 => rfl

/-- A label with what a class name goes on with is a path. -/
theorem isPath_append_classTail (s : List Char) :
    ∀ l, IsLabel l → IsPath (l ++ (classTail s).1) := by
  fun_induction classTail s with
  | case1 c r h name q hq ih =>
    intro l hl
    rw [hq] at ih
    exact .more hl (ih [c] (isLabel_singleton h))
  | case2 c r h =>
    intro l hl
    simpa using IsPath.label hl
  | case3 c r hr h name q hq ih =>
    intro l hl
    rw [hq] at ih
    simpa using ih (l ++ [c]) (isLabel_concat hl h)
  | case4 c r hr h =>
    intro l hl
    simpa using IsPath.label hl
  | case5 =>
    intro l hl
    simpa using IsPath.label hl

theorem className?_sound {s n r : List Char} (h : className? s = some (n, r)) :
    IsName n ∧ s = n ++ r := by
  have key : ∀ {c : Char} (q : List Char), isLabelStart c = true →
      IsPath (c :: (classTail q).1) ∧ c :: q = c :: (classTail q).1 ++ (classTail q).2 :=
    fun {c} q hc => ⟨isPath_append_classTail q [c] (isLabel_singleton hc), by
      simp [classTail_append]⟩
  unfold className? at h
  split at h
  next c q =>
    split at h
    next hc =>
      obtain ⟨hp, he⟩ := key q hc
      simp only [Option.some.injEq, Prod.mk.injEq] at h
      obtain ⟨rfl, rfl⟩ := h
      exact ⟨.inr ⟨_, rfl, hp⟩, by rw [he]; simp⟩
    next => exact absurd h (by simp)
  next c q _ =>
    split at h
    next hc =>
      obtain ⟨hp, he⟩ := key q hc
      simp only [Option.some.injEq, Prod.mk.injEq] at h
      obtain ⟨rfl, rfl⟩ := h
      exact ⟨.inl hp, he⟩
    next => exact absurd h (by simp)
  next => exact absurd h (by simp)

theorem classTail_of_endsName {r : List Char} (h : EndsName r) : classTail r = ([], r) := by
  cases r with
  | nil => rfl
  | cons c q =>
    obtain ⟨hp, hb⟩ := h c (by simp)
    rw [classTail.eq_2 _ _ fun d q' hc => absurd hc hb]
    simp [hp]

/-- The parts of a label are all taken. -/
theorem classTail_parts {m : List Char} (h : ∀ c ∈ m, isLabelPart c = true) (r : List Char) :
    classTail (m ++ r) = (m ++ (classTail r).1, (classTail r).2) := by
  induction m with
  | nil => rfl
  | cons c m ih =>
    have hc := h c (by simp)
    have hb : c ≠ '\\' := by
      rintro rfl
      rw [isLabelPart_backslash] at hc
      exact absurd hc (by simp)
    rw [List.cons_append, classTail.eq_2 _ _ fun d q hd => absurd hd hb,
      ih fun d hd => h d (by simp [hd])]
    simp [hc]

/-- A path is read to its end. -/
theorem isPath_cons {p : List Char} (h : IsPath p) : ∃ c m, p = c :: m ∧ isLabelStart c = true ∧
    ∀ r, EndsName r → classTail (m ++ r) = (m, r) := by
  induction h with
  | label hl =>
    obtain ⟨c, m, rfl, hc, hm⟩ := hl
    refine ⟨c, m, rfl, hc, fun r hr => ?_⟩
    rw [classTail_parts hm, classTail_of_endsName hr]
    simp
  | more hl _ ih =>
    obtain ⟨c, m, rfl, hc, hm⟩ := hl
    obtain ⟨d, k, rfl, hd, hk⟩ := ih
    refine ⟨c, m ++ '\\' :: d :: k, rfl, hc, fun r hr => ?_⟩
    rw [List.append_assoc, classTail_parts hm]
    simp [classTail, hd, hk r hr]

theorem IsName.ne_nil {s : List Char} (h : IsName s) : s ≠ [] := by
  rcases h with hp | ⟨p, rfl, -⟩
  · obtain ⟨c, m, rfl, -⟩ := isPath_cons hp
    exact List.cons_ne_nil c m
  · exact List.cons_ne_nil _ p

theorem isLabelStart_ne_backslash {c : Char} (h : isLabelStart c = true) : c ≠ '\\' := by
  rintro rfl
  exact absurd h (by decide)

/-- A class name is read to its end. -/
theorem className?_append {n r : List Char} (hn : IsName n) (hr : EndsName r) :
    className? (n ++ r) = some (n, r) := by
  rcases hn with hp | ⟨p, rfl, hp⟩
  · obtain ⟨c, m, rfl, hc, hm⟩ := isPath_cons hp
    rw [List.cons_append,
      className?.eq_2 _ _ fun d q hd => absurd hd (isLabelStart_ne_backslash hc)]
    simp [hc, hm r hr]
  · obtain ⟨c, m, rfl, hc, hm⟩ := isPath_cons hp
    simp [className?, hc, hm r hr]

theorem className?_eq_none {c : Char} (hc : isLabelStart c = false) (hb : c ≠ '\\')
    (r : List Char) : className? (c :: r) = none := by
  rw [className?.eq_2 _ _ fun d q hd => absurd hd hb]
  simp [hc]

/-! ### Levels -/

theorem length_pairs (n : Nat) : (pairs n).length = 2 * n := by
  induction n with
  | zero => rfl
  | succ n ih =>
    rw [pairs, List.length_cons, List.length_cons, ih]
    omega

theorem levels_append (s : List Char) : s = pairs (levels s).1 ++ (levels s).2 := by
  fun_induction levels s with
  | case1 r n q hq ih =>
    rw [hq] at ih
    simpa [pairs] using ih
  | case2 r _ => rfl

/-- No level is left behind levels. -/
theorem levels_levels (s : List Char) : (levels (levels s).2).1 = 0 := by
  fun_induction levels s with
  | case1 r n q hq ih =>
    rw [hq] at ih
    exact ih
  | case2 r hr => rw [levels.eq_2 _ hr]

theorem levels_of_head? {r : List Char} (h : r.head? ≠ some '[') : levels r = (0, r) := by
  rw [levels.eq_2]
  rintro q rfl
  exact h rfl

theorem levels_pairs (n : Nat) {r : List Char} (h : r.head? ≠ some '[') :
    levels (pairs n ++ r) = (n, r) := by
  induction n with
  | zero => exact levels_of_head? h
  | succ n ih => simp [pairs, levels, ih]

end DocComment.TypeExpr
