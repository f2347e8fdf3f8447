import DocComment.Comment.Source
import DocComment.Proofs.Text.Lines

/-! Comments are cut out of a text at the same places when its line endings are converted.
Neither an opening nor a closing holds a break, and a body ends before its closing, so no
line ending reaches over an end of a comment. -/

namespace DocComment.Comment

open Text

variable {s body q : List Char}

theorem after?_unifyBreaks {w : List Char} (hw : ∀ c ∈ w, c ≠ '\r' ∧ c ≠ '\n') (s : List Char) :
    after? w (unifyBreaks s) = (after? w s).map unifyBreaks := by
  induction w generalizing s with
  | nil => rfl
  | cons c w ih =>
    obtain ⟨⟨hr, hn⟩, hw'⟩ := List.forall_mem_cons.1 hw
    by_cases h : s.head? = some c
    · cases s with
      | nil => exact absurd h (by simp)
      | cons d s =>
        obtain rfl : d = c := by simpa using h
        simp [unifyBreaks_cons hr, after?, ih hw']
    · have none_of {t : List Char} (ht : t.head? ≠ some c) : after? (c :: w) t = none := by
        cases t with
        | nil => rfl
        | cons d t =>
          have hd : c ≠ d := by rintro rfl; exact ht rfl
          rw [after?, if_neg hd]
      rw [none_of h, none_of (mt (head?_unifyBreaks hr hn s).1 h), Option.map_none]

/-- A character that begins no closing is part of the body. -/
theorem untilClosing?_cons {c : Char} {r : List Char} (h : ¬ (c = '*' ∧ r.head? = some '/')) :
    untilClosing? (c :: r) = (untilClosing? r).map fun (body, q) => (c :: body, q) := by
  rw [untilClosing?.eq_3]
  rintro q rfl rfl
  exact h ⟨rfl, rfl⟩

theorem untilClosing?_unifyBreaks (s : List Char) :
    untilClosing? (unifyBreaks s) = (untilClosing? s).map (Prod.map unifyBreaks unifyBreaks) := by
  fun_induction unifyBreaks s with
  | case1 r ih =>
    rw [untilClosing?_cons (by simp), untilClosing?_cons (by simp), untilClosing?_cons (by simp),
      ih, Option.map_map, Option.map_map, Option.map_map]
    rfl
  | case2 r hr ih =>
    rw [untilClosing?_cons (by simp), untilClosing?_cons (by simp), ih]
    cases h : untilClosing? r with
    | none => rfl
    | some found =>
      obtain ⟨body, q⟩ := found
      have hb : body.head? ≠ some '\n' := by
        intro hb
        cases body with
        | nil => simp at hb
        | cons c body =>
          obtain rfl : c = '\n' := by simpa using hb
          exact hr _ (eq_of_untilClosing? h)
      simp [unifyBreaks_return hb]
  | case3 c r _ hc ih =>
    by_cases h : c = '*' ∧ r.head? = some '/'
    · obtain ⟨rfl, hr⟩ := h
      cases r with
      | nil => exact absurd hr (by simp)
      | cons d q =>
        obtain rfl : d = '/' := by simpa using hr
        rw [unifyBreaks_cons (by decide)]
        rfl
    · have hu : ¬ (c = '*' ∧ (unifyBreaks r).head? = some '/') := by
        rwa [head?_unifyBreaks (by decide) (by decide)]
      rw [untilClosing?_cons h, untilClosing?_cons hu, ih, Option.map_map, Option.map_map]
      congr 1
      funext found
      obtain ⟨body, q⟩ := found
      simp [unifyBreaks_cons hc]
  | case4 => rfl

/-- Behind an opening the body is looked for unless a slash follows. -/
theorem body?_eq (s : List Char) :
    body? s = (after? ['/', '*', '*'] s).bind fun r =>
      if r.head? = some '/' then none else untilClosing? r := by
  unfold body?
  split
  next r hr =>
    simp [hr]
  next r hs hr =>
    have hh : r.head? ≠ some '/' := by
      intro hh
      cases r with
      | nil => exact absurd hh (by simp)
      | cons c r =>
        obtain rfl : c = '/' := by simpa using hh
        exact hs r rfl
    simp [hr, hh]
  next hr =>
    simp [hr]

/-- The body of a comment is found at the same place with its breaks converted. -/
theorem body?_unifyBreaks (s : List Char) :
    body? (unifyBreaks s) = (body? s).map (Prod.map unifyBreaks unifyBreaks) := by
  rw [body?_eq, body?_eq, after?_unifyBreaks (by simp)]
  cases after? ['/', '*', '*'] s with
  | none => rfl
  | some r =>
    simp only [Option.map_some, Option.bind_some, untilClosing?_unifyBreaks,
      head?_unifyBreaks (c := '/') (by decide) (by decide)]
    split_ifs <;> rfl

theorem bodies_nil : bodies [] = [] := by rw [bodies]

theorem bodies_of_body? (h : body? s = some (body, q)) : bodies s = body :: bodies q := by
  cases s with
  | nil => exact absurd h (by simp [body?, after?])
  | cons c r =>
    rw [bodies]
    split
    next body' q' hb =>
      obtain ⟨rfl, rfl⟩ : body' = body ∧ q' = q := by simpa using hb.symm.trans h
      rfl
    next hb =>
      exact absurd (hb.symm.trans h) (by simp)

theorem bodies_of_none {c : Char} {r : List Char} (h : body? (c :: r) = none) :
    bodies (c :: r) = bodies r := by
  rw [bodies]
  split
  next hb =>
    exact absurd (h.symm.trans hb) (by simp)
  next => rfl

/-- The comments of a converted text are the converted comments of the text. -/
theorem bodies_unifyBreaks (s : List Char) :
    bodies (unifyBreaks s) = (bodies s).map unifyBreaks := by
  fun_induction bodies s with
  | case1 => exact bodies_nil
  | case2 c r body q h _ ih =>
    have hu : body? (unifyBreaks (c :: r)) = some (unifyBreaks body, unifyBreaks q) := by
      rw [body?_unifyBreaks, h, Option.map_some, Prod.map_apply]
    rw [bodies_of_body? hu, ih, List.map_cons]
  | case3 c r h ih =>
    have hu : body? (unifyBreaks (c :: r)) = none := by
      rw [body?_unifyBreaks, h, Option.map_none]
    rw [← ih]
    by_cases hc : c = '\r'
    · subst hc
      by_cases hr : r.head? = some '\n'
      · -- the return goes with the break behind it, which is looked at next
        cases r with
        | nil => exact absurd hr (by simp)
        | cons d r =>
          obtain rfl : d = '\n' := by simpa using hr
          rw [unifyBreaks, unifyBreaks_cons (by decide)]
      · rw [unifyBreaks_return hr] at hu ⊢
        exact bodies_of_none hu
    · rw [unifyBreaks_cons hc] at hu ⊢
      exact bodies_of_none hu

theorem unifyBreaks_wrap (body : List Char) :
    unifyBreaks (wrap body) = wrap (unifyBreaks body) := by
  have hopen := unifyBreaks_append (l := ['/', '*', '*']) (by decide) (body ++ ['*', '/'])
  have hclose := unifyBreaks_append_of_head? body (r := ['*', '/']) (by decide)
  exact hopen.trans (congrArg (['/', '*', '*'] ++ ·) hclose)

theorem extract_withBreaks (source : String) :
    extract (withBreaks source) = (extract source).map withBreaks := by
  rw [extract, withBreaks, String.toList_ofList, bodies_unifyBreaks, extract, List.map_map,
    List.map_map]
  refine List.map_congr_left fun body _ => ?_
  simp only [Function.comp_apply, withBreaks, String.toList_ofList, unifyBreaks_wrap]

end DocComment.Comment
