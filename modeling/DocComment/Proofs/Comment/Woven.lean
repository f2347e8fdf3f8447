import DocComment.Comment.Extract
import DocComment.Proofs.Comment.Extract
import DocComment.Proofs.Text.Lines

/-! The comments of a source text are the ones it is woven of. A text begins with a comment
exactly when it is one with something behind it, so a comment is found whatever follows, and
where none begins there is none with less behind it. An opening does not begin in what stands
before a comment and end in the comment, since only its first character is a slash. -/

namespace DocComment.Comment

open Text

variable {s body q : List Char}

/-! ### The first comment -/

theorem unclosed_cons {c : Char} :
    Unclosed (c :: s) ↔ ¬ (c = '*' ∧ s.head? = some '/') ∧ Unclosed s := by
  rw [Unclosed, pair_infix_cons, not_or, @eq_comm _ '*' c, Unclosed]

theorem untilClosing?_of_unclosed (h : Unclosed s) (q : List Char) :
    untilClosing? (s ++ '*' :: '/' :: q) = some (s, q) := by
  induction s with
  | nil => rfl
  | cons c s ih =>
    obtain ⟨hc, hs⟩ := unclosed_cons.1 h
    have hnot : ¬ (c = '*' ∧ (s ++ '*' :: '/' :: q).head? = some '/') := by
      cases s with
      | nil => simp
      | cons d s => simpa using hc
    rw [List.cons_append, untilClosing?_cons hnot, ih hs, Option.map_some]

theorem unclosed_of_untilClosing? (h : untilClosing? s = some (body, q)) : Unclosed body := by
  fun_induction untilClosing? s generalizing body with
  | case1 => exact absurd h (by simp)
  | case2 r =>
    obtain ⟨rfl, -⟩ := Prod.mk.inj (Option.some.inj h)
    decide
  | case3 c r hnot ih =>
    obtain ⟨⟨b, q'⟩, hb, he⟩ := Option.map_eq_some_iff.1 h
    obtain ⟨rfl, rfl⟩ := Prod.mk.inj he
    refine unclosed_cons.2 ⟨?_, ih hb⟩
    rintro ⟨rfl, hh⟩
    obtain ⟨t, rfl⟩ := List.head?_eq_some_iff.1 hh
    exact hnot _ rfl (eq_of_untilClosing? hb)

/-- A text begins with a comment exactly when it is one with something behind it. -/
theorem body?_eq_some_iff : body? s = some (body, q) ↔ IsBody body ∧ s = wrap body ++ q := by
  have hwrap : wrap body ++ q = ['/', '*', '*'] ++ (body ++ '*' :: '/' :: q) := by simp [wrap]
  have hhead : (body ++ '*' :: '/' :: q).head? = some '/' ↔ body.head? = some '/' := by
    cases body <;> simp
  constructor
  · intro h
    refine ⟨?_, by rw [eq_of_body? h, hwrap]; rfl⟩
    rw [body?_eq, Option.bind_eq_some_iff] at h
    obtain ⟨r, -, h⟩ := h
    split_ifs at h with hr
    rw [eq_of_untilClosing? h, hhead] at hr
    exact ⟨unclosed_of_untilClosing? h, hr⟩
  · rintro ⟨hb, rfl⟩
    rw [body?_eq, hwrap, after?_eq_some_iff.2 rfl, Option.bind_some, if_neg (mt hhead.1 hb.head)]
    exact untilClosing?_of_unclosed hb.unclosed q

/-- Where a comment begins, it does so whatever follows. -/
theorem body?_append (h : body? s = some (body, q)) (r : List Char) :
    body? (s ++ r) = some (body, q ++ r) := by
  obtain ⟨hb, rfl⟩ := body?_eq_some_iff.1 h
  exact body?_eq_some_iff.2 ⟨hb, List.append_assoc _ _ _⟩

theorem bodies_wrap (h : IsBody body) (r : List Char) : bodies (wrap body ++ r) = body :: bodies r :=
  bodies_of_body? (body?_eq_some_iff.2 ⟨h, rfl⟩)

/-! ### Comments in a text -/

/-- An opening that begins in a text does not end in a comment behind it. -/
theorem opening_of_append {front r : List Char} (hf : front ≠ []) (hr : ∀ c ∈ r.head?, c = '/')
    (h : ['/', '*', '*'] <+: front ++ r) : ['/', '*', '*'] <+: front := by
  have hstar {w : List Char} : ¬ '*' :: w <+: r := by
    rintro ⟨t, rfl⟩
    exact absurd (hr '*' rfl) (by decide)
  match front, hf with
  | [c], _ => exact absurd (List.cons_prefix_cons.1 h).2 hstar
  | [c, d], _ => exact absurd (List.cons_prefix_cons.1 (List.cons_prefix_cons.1 h).2).2 hstar
  | c :: d :: e :: front, _ => simpa [List.cons_prefix_cons] using h

/-- No comment begins in a text without an opening, whatever comment follows. -/
theorem bodies_append_of_unopened {front r : List Char} (h : Unopened front)
    (hr : ∀ c ∈ r.head?, c = '/') : bodies (front ++ r) = bodies r := by
  induction front with
  | nil => rfl
  | cons c front ih =>
    have hnone : body? (c :: (front ++ r)) = none := by
      rw [Option.eq_none_iff_forall_ne_some]
      rintro ⟨body, q⟩ hb
      have hopen : ['/', '*', '*'] <+: c :: front ++ r := ⟨_, (eq_of_body? hb).symm⟩
      exact h (opening_of_append (List.cons_ne_nil c front) hr hopen).isInfix
    rw [List.cons_append, bodies_of_none hnone]
    exact ih fun hf => h (List.infix_cons hf)

/-- Between texts without openings the comments are found as they are written. -/
theorem bodies_woven {front : List Char} {ps : List Segment}
    (h : ∀ f ∈ fillers front ps, Unopened f) : bodies (woven front ps) = ps.map Segment.body := by
  induction ps generalizing front with
  | nil =>
    have hfront := bodies_append_of_unopened (r := []) (h front (by simp [fillers])) (by simp)
    rwa [List.append_nil, bodies_nil] at hfront
  | cons p ps ih =>
    obtain ⟨hfront, hps⟩ := List.forall_mem_cons.1 h
    have hslash : ∀ c ∈ (wrap p.body ++ woven p.behind ps).head?, c = '/' := by simp [wrap]
    rw [woven, bodies_append_of_unopened hfront hslash, bodies_wrap p.isBody, ih hps, List.map_cons]

theorem exists_append_of_woven (front : List Char) (ps : List Segment) :
    ∃ r, woven front ps = front ++ r := by
  cases ps with
  | nil => exact ⟨[], (List.append_nil front).symm⟩
  | cons p ps => exact ⟨_, rfl⟩

/-- Every text is woven of its comments and of text in which there are none. -/
theorem exists_woven (s : List Char) :
    ∃ front ps, s = woven front ps ∧ bodies s = ps.map Segment.body ∧
      ∀ f ∈ fillers front ps, bodies f = [] := by
  fun_induction bodies s with
  | case1 => exact ⟨[], [], rfl, rfl, by simp [fillers, bodies_nil]⟩
  | case2 c r body q h _ ih =>
    obtain ⟨front, ps, rfl, hps, hnone⟩ := ih
    obtain ⟨hb, htext⟩ := body?_eq_some_iff.1 h
    exact ⟨[], ⟨body, front, hb⟩ :: ps, htext, congrArg _ hps,
      List.forall_mem_cons.2 ⟨bodies_nil, hnone⟩⟩
  | case3 c r h ih =>
    obtain ⟨front, ps, rfl, hps, hnone⟩ := ih
    obtain ⟨hfront, hbehind⟩ := List.forall_mem_cons.1 hnone
    have hc : body? (c :: front) = none := by
      rw [Option.eq_none_iff_forall_ne_some]
      rintro ⟨body, q⟩ hb
      obtain ⟨r, hr⟩ := exists_append_of_woven front ps
      have hlong := body?_append hb r
      rw [List.cons_append, ← hr, h] at hlong
      exact absurd hlong (by simp)
    refine ⟨c :: front, ps, ?_, hps, List.forall_mem_cons.2 ⟨?_, hbehind⟩⟩
    · cases ps <;> rfl
    · rw [bodies_of_none hc, hfront]

theorem extract_ofList (s : List Char) :
    extract (String.ofList s) = (bodies s).map fun body => String.ofList (wrap body) := by
  rw [extract, String.toList_ofList]

/-- A source text is woven of the comments that are extracted and of text with none in it; and
whatever is woven of comments and of text without openings, these are the comments that are
extracted. -/
theorem extract_woven :
    (∀ source : String, ∃ front ps, source.toList = woven front ps ∧
      extract source = ps.map Segment.comment ∧
      ∀ f ∈ fillers front ps, extract (String.ofList f) = []) ∧
    (∀ front ps, (∀ f ∈ fillers front ps, Unopened f) →
      extract (String.ofList (woven front ps)) = ps.map Segment.comment) := by
  constructor
  · intro source
    obtain ⟨front, ps, htext, hps, hnone⟩ := exists_woven source.toList
    refine ⟨front, ps, htext, ?_, fun f hf => ?_⟩
    · rw [extract, hps, List.map_map]
      rfl
    · rw [extract_ofList, hnone f hf, List.map_nil]
  · intro front ps h
    rw [extract_ofList, bodies_woven h, List.map_map]
    rfl

/-- Openings and closings share characters with what stands beside them. -/
theorem extract_woven_touching :
    (∀ f ∈ [['/', '*'], ['/'], ['*', '*', '/'], ['/', '*']], Unopened f) ∧
      extract "/*/***///****/**//** a /** b *//*" = ["/***/", "/****/", "/** a /** b */"] := by
  have h : ∀ f ∈ [['/', '*'], ['/'], ['*', '*', '/'], ['/', '*']], Unopened f := by decide
  have hread := extract_woven.2 ['/', '*'] [⟨[], ['/'], by decide⟩,
    ⟨['*'], ['*', '*', '/'], by decide⟩, ⟨" a /** b ".toList, ['/', '*'], by decide +kernel⟩] h
  refine ⟨h, Eq.trans (congrArg extract ?_) (hread.trans ?_)⟩
  · decide +kernel
  · decide +kernel

end DocComment.Comment
