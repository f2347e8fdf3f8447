import DocComment.Proofs.TypeExpr.Derivation
import DocComment.Proofs.TypeExpr.Soundness

/-! What the grammar derives, the rules read. The rules commit to the first alternative
that matches, so it has to be seen that no commitment loses a type: a keyword is no
collection but `array`, a base without brackets behind it is given back, and behind a
type comes the end, a bar or a character that stops, none of which a name, an angle
bracket or a pair of brackets can go on with. -/

namespace DocComment.TypeExpr

open Text Grammar

/-- What may follow a type. -/
def EndsType (r : List Char) : Prop := ∀ c ∈ r.head?, c = '|' ∨ c = ',' ∨ c = '>' ∨ c = ')'

/-- A character that ends a nested expression is a comma or a closing bracket. -/
def IsStop (stop : Stop) : Prop := ∀ c, stop c = true → c = ',' ∨ c = '>' ∨ c = ')'

theorem isStop_paren : IsStop (· = ')') := by simp [IsStop]

theorem isStop_angle : IsStop (· = '>') := by simp [IsStop]

theorem isStop_comma : IsStop fun c => c = ',' || c = '>' := by
  intro c hc
  simp only [Bool.or_eq_true, decide_eq_true_eq] at hc
  rcases hc with rfl | rfl <;> simp

/-- Nested expressions of the grammar are read with less nesting than allowed. -/
def NestedComplete (allowed : Nat) (nested : Stop → Rule Id) : Prop :=
  ∀ stop n w t r, IsStop stop → n < allowed → Expression n w t →
    (∀ c ∈ r.head?, stop c = true) → (nested stop (w ++ r)).run = some (t, r)

/-! ### What follows a word -/

/-- No keyword has a character that may follow a word. -/
theorem notMem_keyword {c : Char} (hc : c ∈ ['(', '|', ',', '>', ')', '[', '<']) {k : String}
    (hk : k ∈ keywords) : c ∉ k.toList := by
  have key : ∀ k ∈ keywords, (['(', '|', ',', '>', ')', '[', '<'].all fun c =>
      !k.toList.contains c) = true := by decide
  simpa using List.all_eq_true.1 (key k hk) c hc

theorem endsName_of_mem {c : Char} (h : c ∈ ['|', ',', '>', ')', '[', '<']) (r : List Char) :
    EndsName (c :: r) := by
  have key : ∀ c ∈ ['|', ',', '>', ')', '[', '<'], isLabelPart c = false ∧ c ≠ '\\' := by
    simp [isLabelPart, isLabelStart, isLetter, isDigit]
  intro d hd
  rw [List.head?_cons, Option.mem_def, Option.some.injEq] at hd
  exact hd ▸ key c h

/-- What a word may be followed by: the end, or a character of no word. -/
inductive EndsWord : List Char → Prop where
  | nil : EndsWord []
  | cons {c : Char} (h : c ∈ ['|', ',', '>', ')', '[', '<']) (r : List Char) : EndsWord (c :: r)

theorem EndsWord.endsName {r : List Char} (h : EndsWord r) : EndsName r := by
  cases h with
  | nil => simp [EndsName]
  | cons h r => exact endsName_of_mem h r

theorem EndsWord.notMem_keyword {r : List Char} (h : EndsWord r) :
    ∀ c ∈ r.head?, ∀ k ∈ keywords, c ∉ k.toList := by
  cases h with
  | nil => simp
  | @cons d h r =>
    intro c hc
    rw [List.head?_cons, Option.mem_def, Option.some.injEq] at hc
    exact fun k hk => hc ▸ TypeExpr.notMem_keyword (List.mem_cons_of_mem _ h) hk

theorem EndsType.endsWord {r : List Char} (h : EndsType r) : EndsWord r := by
  cases r with
  | nil => exact .nil
  | cons c r =>
    refine .cons ?_ r
    rcases h c (by simp) with rfl | rfl | rfl | rfl <;> simp

theorem EndsType.head?_ne {r : List Char} (h : EndsType r) {d : Char}
    (hd : d = '[' ∨ d = '<' ∨ d = '(') : r.head? ≠ some d := by
  intro hr
  have := h d hr
  rcases hd with rfl | rfl | rfl <;> revert this <;> decide

theorem endsWord_pairs {n : { n : Nat // 0 < n }} (r : List Char) : EndsWord (pairs n ++ r) := by
  obtain ⟨n, hn⟩ := n
  cases n with
  | zero => omega
  | succ n => exact .cons (by simp) _

/-! ### Words in front of what follows them -/

theorem keyword?_className {n r : List Char} (hn : IsClassName n) (hr : EndsWord r) :
    keyword? (n ++ r) = none :=
  keyword?_append_eq_none hn.2 hr.notMem_keyword

theorem className?_className {n r : List Char} (hn : IsClassName n) (hr : EndsWord r) :
    className? (n ++ r) = some (n, r) :=
  className?_append hn.1 hr.endsName

theorem keyword?_paren (r : List Char) : keyword? ('(' :: r) = none :=
  keyword?_append_eq_none (n := []) (by decide) (by
    intro c hc
    rw [List.head?_cons, Option.mem_def, Option.some.injEq] at hc
    exact fun k hk => hc ▸ notMem_keyword (by simp) hk)

theorem className?_paren (r : List Char) : className? ('(' :: r) = none :=
  className?_eq_none (by decide) (by decide) r

theorem head?_keyword {k : String} (hk : k ∈ keywords) (r : List Char) :
    (k.toList ++ r).head? ≠ some '(' := by
  have key : ∀ k ∈ keywords, (k.toList.head?.any fun c => c != '(') = true := by decide
  have hc := key k hk
  cases h : k.toList with
  | nil => simp [h] at hc
  | cons c l => simpa [h] using hc

theorem head?_className {n : List Char} (hn : IsClassName n) (r : List Char) :
    (n ++ r).head? ≠ some '(' := by
  have hstart : isLabelStart '(' = false := by decide
  rcases hn.1 with hp | ⟨p, rfl, hp⟩
  · obtain ⟨c, m, rfl, hc, -⟩ := isPath_cons hp
    rintro h
    obtain rfl : c = '(' := by simpa using h
    rw [hstart] at hc
    exact absurd hc (by simp)
  · simp

namespace Rule

theorem run_keyword (s : List Char) :
    (keyword (m := Id) s).run = (keyword? s).map fun (k, r) => (.keyword k, r) := run_settled _

theorem run_className (s : List Char) : (className (m := Id) s).run =
    (className? s).map fun (n, r) => (.className (String.ofList n), r) := run_settled _

theorem run_withLevels (base : TypeExpr) (l : { n : Nat // 0 < n }) {r : List Char}
    (hr : r.head? ≠ some '[') :
    (withLevels (m := Id) (base, pairs l ++ r)).run = some (.array base l, r) := by
  simp [withLevels, run_settled, levels_pairs _ hr, l.2]

/-- Without a pair of brackets behind it a base is given back. -/
theorem run_withLevels_eq_none (base : TypeExpr) {r : List Char} (hr : r.head? ≠ some '[') :
    (withLevels (m := Id) (base, r)).run = none := by
  simp [withLevels, run_settled, levels_of_head? hr]

/-- No generic begins with a parenthesis. -/
theorem collection?_paren (r : List Char) (c : Option String) (q : List Char) :
    collection? ('(' :: r) ≠ some (c, '<' :: q) := by
  simp [collection?, keyword?_paren, className?_paren]

/-- The collection in front of an angle bracket. -/
theorem collection?_append {name : List Char} {c : Option String} (h : IsCollection name c)
    (r : List Char) : collection? (name ++ '<' :: r) = some (c, '<' :: r) := by
  cases h with
  | array => rw [collection?, keyword?_append (by decide)]; rfl
  | className h =>
    have hr : EndsWord ('<' :: r) := .cons (by simp) r
    rw [collection?, keyword?_className h hr, className?_className h hr]
    rfl

/-- A word that no angle bracket follows is no collection of a generic. -/
theorem collection?_ne {w r : List Char} (hr : r.head? ≠ some '<')
    (h : (∃ k ∈ keywords, w = k.toList) ∨ IsClassName w ∧ EndsWord r) (c : Option String)
    (q : List Char) : collection? (w ++ r) ≠ some (c, '<' :: q) := by
  intro hc
  rcases h with ⟨k, hk, rfl⟩ | ⟨hw, he⟩
  · rw [collection?, keyword?_append hk] at hc
    dsimp only at hc
    split at hc
    · simp only [Option.some.injEq, Prod.mk.injEq] at hc
      simp [hc.2] at hr
    · exact absurd hc (by simp)
  · rw [collection?, keyword?_className hw he, className?_className hw he] at hc
    simp only [Option.map_some, Option.some.injEq, Prod.mk.injEq] at hc
    simp [hc.2] at hr

variable {allowed : Nat} {nested : Stop → Rule Id}

theorem run_generic_eq_none {s : List Char} (h : ∀ c q, collection? s ≠ some (c, '<' :: q)) :
    (generic .direct nested s).run = none := by
  unfold generic
  split
  next c q hc =>
    exact absurd hc (h c q)
  next => rfl

theorem run_group_eq_none {s : List Char} (h : s.head? ≠ some '(') :
    (group .direct nested s).run = none := by
  unfold group
  split
  · exact absurd rfl h
  · rfl

theorem run_leveled (s : List Char) : (leveled .direct nested s).run =
    ((keyword (m := Id) s).run.or ((generic .direct nested s).run.or
      ((className (m := Id) s).run.or (group .direct nested s).run))).bind
        fun b => (withLevels (m := Id) b).run := by
  simp only [leveled, run_bind, run_orElse]

theorem run_type (s : List Char) : (type .direct nested s).run =
    ((leveled .direct nested s).run.or ((group .direct nested s).run.or
      (generic .direct nested s).run)).or
        ((keyword (m := Id) s).run.or (className (m := Id) s).run) := by
  simp only [type, array, run_orElse]

/-! ### One level -/

theorem group_complete (hn : NestedComplete allowed nested) {n : Nat} {s : List Char}
    {t : TypeExpr} {ts : List TypeExpr} (hle : n < allowed) (h : Members n s t ts)
    (l : { n : Nat // 0 < n }) {r : List Char} (hr : r.head? ≠ some '[') :
    (group .direct nested ('(' :: (s ++ ')' :: pairs l) ++ r)).run =
      some (.array (join t ts) l, r) := by
  have hs := hn _ n s (join t ts) (')' :: (pairs l ++ r)) isStop_paren hle
    ⟨t, ts, h, rfl⟩ (by simp)
  simp only [group, Policy.direct, List.cons_append, List.append_assoc, run_bind, hs,
    Option.bind_some]
  exact run_withLevels _ l hr

theorem generic_complete (hn : NestedComplete allowed nested) {n : Nat} {w : List Char}
    {c : Option String} {t : TypeExpr} (hle : n ≤ allowed) (h : Generic n w c t) (r : List Char) :
    (generic .direct nested (w ++ r)).run = some (t, r) := by
  cases h with
  | @value n name s c t ts hc hm =>
    have hs := hn _ n s (join t ts) ('>' :: r) isStop_comma hle ⟨t, ts, hm, rfl⟩ (by simp)
    have hw : name ++ '<' :: (s ++ ['>']) ++ r = name ++ '<' :: (s ++ '>' :: r) := by simp
    rw [hw, generic, collection?_append hc]
    simp only [Policy.direct, run_bind, hs, Option.bind_some]
    rfl
  | @keyed n m name k gap s c u t us ts hc hk hgap hm =>
    obtain ⟨d, q, rfl, hd⟩ := hm.starts
    have hkey := hn _ n k (join u us) (',' :: (gap ++ (d :: q ++ '>' :: r))) isStop_comma
      (by omega) ⟨u, us, hk, rfl⟩ (by simp)
    have hval := hn _ m (d :: q) (join t ts) ('>' :: r) isStop_angle (by omega) ⟨t, ts, hm, rfl⟩
      (by simp)
    have hdrop : (gap ++ (d :: q ++ '>' :: r)).dropWhile isGap = d :: q ++ '>' :: r := by
      rw [List.dropWhile_append_of_pos hgap]
      simp [hd]
    have hw : name ++ '<' :: (k ++ ',' :: (gap ++ (d :: q ++ ['>']))) ++ r =
        name ++ '<' :: (k ++ ',' :: (gap ++ (d :: q ++ '>' :: r))) := by simp
    rw [hw, generic, collection?_append hc]
    simp only [Policy.direct, run_bind, hkey, Option.bind_some, hdrop, hval]
    rfl

/-- A base with brackets behind it is read by the first rule that is tried. -/
theorem run_type_of_leveled {s : List Char} {p : Parsed}
    (h : (leveled .direct nested s).run = some p) : (type .direct nested s).run = some p := by
  simp [run_type, h]

theorem run_leveled_keyword {k : String} (hk : k ∈ keywords) (r : List Char) :
    (leveled .direct nested (k.toList ++ r)).run = (withLevels (m := Id) (.keyword k, r)).run := by
  simp [run_leveled, run_keyword, keyword?_append hk]

/-- The word `array` is the base that counts, whatever the angle bracket opens. -/
theorem run_leveled_array (r : List Char) :
    (leveled .direct nested ("array".toList ++ '<' :: r)).run = none := by
  rw [run_leveled_keyword (by decide)]
  exact run_withLevels_eq_none _ (by simp)

theorem run_leveled_generic {s r : List Char} {t : TypeExpr} (hk : keyword? s = none)
    (h : (generic .direct nested s).run = some (t, r)) :
    (leveled .direct nested s).run = (withLevels (m := Id) (t, r)).run := by
  simp [run_leveled, run_keyword, hk, h]

theorem run_leveled_className {n r : List Char} (hn : IsClassName n) (he : EndsWord r)
    (hr : r.head? ≠ some '<') : (leveled .direct nested (n ++ r)).run =
      (withLevels (m := Id) (.className (String.ofList n), r)).run := by
  have hg : (generic .direct nested (n ++ r)).run = none :=
    run_generic_eq_none (collection?_ne hr (.inr ⟨hn, he⟩))
  simp [run_leveled, run_keyword, keyword?_className hn he, hg, run_className,
    className?_className hn he]

/-- The collection of a generic is read before the generic is. -/
theorem keyword?_of_named {n : Nat} {w : List Char} {c : String} {t : TypeExpr}
    (h : Generic n w (some c) t) (r : List Char) : keyword? (w ++ r) = none := by
  obtain ⟨name, q, hc, rfl⟩ := h.exists_collection
  cases hc with
  | className hn =>
    rw [List.append_assoc]
    exact keyword?_className hn (.cons (by simp) _)

/-- A generic without brackets behind it is read on its own. -/
theorem run_leveled_of_generic (hn : NestedComplete allowed nested) {n : Nat} {w : List Char}
    {c : Option String} {t : TypeExpr} (hle : n ≤ allowed) (h : Generic n w c t) {r : List Char}
    (hr : r.head? ≠ some '[') : (leveled .direct nested (w ++ r)).run = none := by
  cases c with
  | none =>
    obtain ⟨_, q, hc, rfl⟩ := h.exists_collection
    cases hc
    rw [List.append_assoc]
    exact run_leveled_array _
  | some c =>
    rw [run_leveled_generic (keyword?_of_named h r) (generic_complete hn hle h r)]
    exact run_withLevels_eq_none _ hr

theorem head?_generic {n : Nat} {w : List Char} {c : Option String} {t : TypeExpr}
    (h : Generic n w c t) (r : List Char) : (w ++ r).head? ≠ some '(' := by
  obtain ⟨name, q, hc, rfl⟩ := h.exists_collection
  rw [List.append_assoc]
  cases hc with
  | array => exact head?_keyword (by decide) _
  | className hn => exact head?_className hn _

theorem type_complete (hn : NestedComplete allowed nested) {n : Nat} {w : List Char}
    {t : TypeExpr} (hle : n ≤ allowed) (h : Single n w t) {r : List Char} (hr : EndsType r) :
    (type .direct nested (w ++ r)).run = some (t, r) := by
  have hb : r.head? ≠ some '[' := hr.head?_ne (by simp)
  have ha : r.head? ≠ some '<' := hr.head?_ne (by simp)
  cases h with
  | @keyword k hk =>
    have hl : (leveled .direct nested (k.toList ++ r)).run = none := by
      rw [run_leveled_keyword hk, run_withLevels_eq_none _ hb]
    have hg : (generic .direct nested (k.toList ++ r)).run = none :=
      run_generic_eq_none (collection?_ne ha (.inl ⟨k, hk, rfl⟩))
    simp [run_type, hl, run_group_eq_none (head?_keyword hk r), hg, run_keyword,
      keyword?_append hk]
  | @className m hm =>
    have hl : (leveled .direct nested (w ++ r)).run = none := by
      rw [run_leveled_className hm hr.endsWord ha, run_withLevels_eq_none _ hb]
    have hg : (generic .direct nested (w ++ r)).run = none :=
      run_generic_eq_none (collection?_ne ha (.inr ⟨hm, hr.endsWord⟩))
    simp [run_type, hl, run_group_eq_none (head?_className hm r), hg, run_keyword,
      keyword?_className hm hr.endsWord, run_className, className?_className hm hr.endsWord]
  | @keywordArray k hk l =>
    apply run_type_of_leveled
    rw [List.append_assoc, run_leveled_keyword hk, run_withLevels _ l hb]
  | @classArray m hm l =>
    apply run_type_of_leveled
    have hp : (pairs l ++ r).head? ≠ some '<' := by
      obtain ⟨l, hl⟩ := l
      cases l with
      | zero => omega
      | succ l => simp [pairs]
    rw [List.append_assoc, run_leveled_className hm (endsWord_pairs r) hp, run_withLevels _ l hb]
  | @group n s u us hm l =>
    have hg := group_complete hn hle hm l hb
    have hnone : (generic .direct nested ('(' :: (s ++ ')' :: pairs l) ++ r)).run = none :=
      run_generic_eq_none (collection?_paren _)
    -- the group comes last among the bases, and it leaves no brackets behind it
    have hl : (leveled .direct nested ('(' :: (s ++ ')' :: pairs l) ++ r)).run = none := by
      rw [run_leveled, hnone, hg]
      simp [run_keyword, keyword?_paren, run_className, className?_paren,
        run_withLevels_eq_none _ hb]
    rw [run_type, hl, hg]
    rfl
  | @generic n s c t hg =>
    simp [run_type, run_leveled_of_generic hn hle hg hb, run_group_eq_none (head?_generic hg r),
      generic_complete hn hle hg r]
  | @genericArray n s c t hg l =>
    apply run_type_of_leveled
    rw [List.append_assoc, run_leveled_generic (keyword?_of_named hg _)
      (generic_complete hn hle hg _), run_withLevels _ l hb]

/-- Members are read one after the other, given enough fuel for their number. -/
theorem members_complete (hn : NestedComplete allowed nested) {stop : Stop} (hs : IsStop stop)
    {ts : List TypeExpr} : ∀ {n : Nat} {w : List Char} {t : TypeExpr} {r : List Char} {fuel : Nat},
      n ≤ allowed → Members n w t ts → (∀ c ∈ r.head?, stop c = true) → ts.length < fuel →
        (members .direct nested stop fuel (w ++ r)).run = some ((t, ts), r) := by
  have hends : ∀ {r : List Char}, (∀ c ∈ r.head?, stop c = true) → EndsType r :=
    fun hr c hc => .inr (hs c (hr c hc))
  induction ts with
  | nil =>
    intro n w t r fuel hle h hr hf
    obtain ⟨fuel, rfl⟩ := Nat.exists_eq_add_one_of_ne_zero (Nat.ne_zero_of_lt hf)
    cases h with
    | one h =>
      simp only [members, run_bind, type_complete hn hle h (hends hr), Option.bind_some]
      cases r with
      | nil => rfl
      | cons c q =>
        dsimp only
        rw [if_pos (hr c (by simp))]
        rfl
  | cons u us ih =>
    intro n w t r fuel hle h hr hf
    obtain ⟨fuel, rfl⟩ := Nat.exists_eq_add_one_of_ne_zero (Nat.ne_zero_of_lt hf)
    rw [List.length_cons] at hf
    cases h with
    | @more n m s x _ _ _ h hx =>
      have hbar : ¬ stop '|' = true := fun h => absurd (hs _ h) (by decide)
      have ht := type_complete hn (by omega) h (r := '|' :: (x ++ r)) (by simp [EndsType])
      have hm := ih (by omega) hx hr (Nat.lt_of_succ_lt_succ hf)
      simp only [members, List.append_assoc, List.cons_append, run_bind, ht, Option.bind_some,
        if_neg hbar, if_true, hm]
      rfl

theorem length_members {n : Nat} {w : List Char} {t : TypeExpr} {ts : List TypeExpr}
    (h : Members n w t ts) : ts.length < w.length := by
  induction ts generalizing n w t with
  | nil =>
    obtain ⟨c, r, rfl, -⟩ := h.starts
    simp
  | cons u us ih =>
    cases h with
    | more h hr =>
      have := ih hr
      simp only [List.length_cons, List.length_append]
      omega

theorem expression_complete (hn : NestedComplete allowed nested) {stop : Stop} (hs : IsStop stop)
    {n : Nat} {w r : List Char} {t : TypeExpr} (hle : n ≤ allowed) (h : Expression n w t)
    (hr : ∀ c ∈ r.head?, stop c = true) :
    (expression .direct nested stop (w ++ r)).run = some (t, r) := by
  obtain ⟨u, us, hm, rfl⟩ := h
  have hf : us.length < (w ++ r).length := by
    have := length_members hm
    rw [List.length_append]
    omega
  simp only [expression, run_bind, members_complete hn hs hle hm hr hf, Option.bind_some]
  rfl

end Rule

/-- With every level that is allowed the rules stay complete. -/
theorem nested_complete (allowed : Nat) : NestedComplete allowed (nested .direct allowed) := by
  induction allowed with
  | zero => intro stop n w t r _ hlt; omega
  | succ allowed ih =>
    intro stop n w t r hs hlt h hr
    exact Rule.expression_complete ih hs (by omega) h hr

/-- The rules read a whole text exactly as the grammar has it, as far as nesting is
allowed. -/
theorem whole_eq_some_iff {allowed : Nat} {s r : List Char} {t : TypeExpr} :
    (whole .direct allowed s).run = some (t, r) ↔
      r = [] ∧ ∃ n, n ≤ allowed ∧ Expression n s t := by
  constructor
  · exact whole_sound
  · rintro ⟨rfl, n, hle, h⟩
    have hs : IsStop fun _ => false := by simp [IsStop]
    have := Rule.expression_complete (nested_complete allowed) hs hle h (r := []) (by simp)
    simpa [whole] using this

end DocComment.TypeExpr
