import DocComment.Proofs.TypeExpr.Memory
import DocComment.TypeExpr.Cursor

/-! Walks that perform rules. A walk performs a rule when, from any cursor in front of the text that
the rule is given, it finds the type that the rule gives and stands in front of what the rule leaves,
or finds nothing and stands where it was; on the way it keeps nothing wrong and comes back to its
level. This is shown once for each way of combining walks, and then for the productions along their
definitions. -/

namespace DocComment.TypeExpr

open Text Grammar

/-! ### Positions -/

/-- What is left of a text behind a number of characters. -/
structure IsRest (text : List Char) (n : Nat) (s : List Char) : Prop where
  le : n ≤ text.length
  drop : text.drop n = s

namespace IsRest

variable {text s w : List Char} {n m : Nat}

theorem add_length (h : IsRest text n s) : n + s.length = text.length := by
  have hle := h.le
  rw [← h.drop, List.length_drop]
  omega

theorem unique (h : IsRest text n s) (h' : IsRest text m s) : n = m := by
  have hn := h.add_length
  have hm := h'.add_length
  omega

theorem advance (h : IsRest text n (w ++ s)) : IsRest text (n + w.length) s := by
  have hlen := h.add_length
  rw [List.length_append] at hlen
  refine ⟨by omega, ?_⟩
  rw [← List.drop_drop, h.drop, List.drop_left]

theorem tail {d : Char} (h : IsRest text n (d :: s)) : IsRest text (n + 1) s :=
  advance (w := [d]) h

theorem getElem?_eq (h : IsRest text n s) : text[n]? = s.head? := by
  rw [← h.drop, List.head?_drop]

end IsRest

/-- Where an answer leaves a cursor that was at a position. -/
inductive Lands {α : Type} (text : List Char) (start : Nat) :
    Option (α × List Char) → Option α × Nat → Prop where
  | failed : Lands text start none (none, start)
  | found {a : α} {r : List Char} {n : Nat} (h : IsRest text n r) :
    Lands text start (some (a, r)) (some a, n)

namespace Lands

variable {α : Type} {text other s : List Char} {start m : Nat} {answer : Option (α × List Char)}
  {x y : Option α × Nat}

theorem unique (hx : Lands text start answer x) (hy : Lands text start answer y) : x = y := by
  cases hx with
  | failed => cases hy; rfl
  | found h =>
    cases hy with
    | found h' => rw [h.unique h']

theorem answer_eq (h : Lands text start answer x) :
    answer = x.1.map fun a => (a, text.drop x.2) := by
  cases h with
  | failed => rfl
  | found h => rw [Option.map_some, h.drop]

theorem eq_start (h : Lands text start answer x) (hx : x.1 = none) : x.2 = start := by
  cases h with
  | failed => rfl
  | found => exact absurd hx (by simp)

/-- In front of the same text the cursor moves on by the same number of characters. -/
theorem congr (hx : Lands text start answer x) (hy : Lands other m answer y)
    (hs : IsRest text start s) (ht : IsRest other m s) : y.1 = x.1 ∧ y.2 - m = x.2 - start := by
  have hslen := hs.add_length
  have htlen := ht.add_length
  cases hx with
  | failed => cases hy; exact ⟨rfl, by omega⟩
  | found h =>
    cases hy with
    | found h' =>
      have hlen := h.add_length
      have hlen' := h'.add_length
      exact ⟨rfl, by omega⟩

end Lands

/-- Everything kept for a position of the text is where the answer of its rule leaves the cursor. -/
def Kept.Agrees (bound : Int) (text : List Char) (kept : Kept) : Prop :=
  ∀ spot outcome, kept.lookup spot = some outcome → ∀ s, IsRest text spot.position s →
    Lands text spot.position (spot.rule.answer (bound - spot.level).toNat s).run outcome

theorem Kept.agrees_nil (bound : Int) (text : List Char) : Kept.Agrees bound text [] := by
  intro spot outcome h
  exact absurd h (by simp)

theorem Kept.Agrees.cons {bound : Int} {text : List Char} {kept : Kept} {spot : Spot}
    {outcome : Option TypeExpr × Nat} (h : kept.Agrees bound text)
    (hs : ∀ s, IsRest text spot.position s →
      Lands text spot.position (spot.rule.answer (bound - spot.level).toNat s).run outcome) :
    Kept.Agrees bound text ((spot, outcome) :: kept) := by
  intro other found hlookup
  by_cases he : other = spot
  · subst he
    rw [List.lookup_cons_self] at hlookup
    rwa [← Option.some.inj hlookup]
  · have hne : (other == spot) = false := by simpa using he
    simp only [List.lookup_cons, hne] at hlookup
    exact h other found hlookup

/-! ### Walks that perform rules -/

section Performs

variable {α : Type} (bound : Int) (text : List Char) (level : Nat)

/-- A walk from a cursor in front of `s` does what an answer says; if that is none, the cursor is
back at `start`. -/
def Performs (start : Nat) (s : List Char) (walk : Walk (Option α))
    (x : OptionT Id (α × List Char)) : Prop :=
  ∀ c : Cursor, IsRest text c.position s → c.level = level → c.kept.Agrees bound text →
    Lands text start x.run ((walk.run c).1, (walk.run c).2.position) ∧
      (walk.run c).2.level = level ∧ (walk.run c).2.kept.Agrees bound text

/-- A walk from any position performs a rule. -/
def Follows (walk : Walk (Option TypeExpr)) (rule : Rule Id) : Prop :=
  ∀ n s, IsRest text n s → Performs bound text level n s walk (rule s)

end Performs

namespace Performs

variable {α β : Type} {bound : Int} {text : List Char} {level start n : Nat} {s w : List Char}
  {walk f g : Walk (Option α)} {x y : OptionT Id (α × List Char)}

theorem giveUp : Performs bound text level start s (Walk.giveUp start : Walk (Option α)) failure :=
  fun _ _ hl hk => ⟨.failed, hl, hk⟩

theorem nothing (h : IsRest text start s) :
    Performs bound text level start s (pure none : Walk (Option α)) failure := by
  intro c hc hl hk
  obtain rfl := hc.unique h
  exact ⟨.failed, hl, hk⟩

protected theorem pure (a : α) : Performs bound text level start s (pure (some a)) (pure (a, s)) :=
  fun _ hc hl hk => ⟨.found hc, hl, hk⟩

theorem congr (h : Performs bound text level start s walk x) (hxy : x.run = y.run) :
    Performs bound text level start s walk y := by
  unfold Performs at *
  rwa [← hxy]

/-! What a walk looks at is told by the text that is left. -/

theorem position {f : Nat → Walk (Option α)} (h : IsRest text start s)
    (hf : Performs bound text level start s (f start) x) :
    Performs bound text level start s (Walk.position >>= f) x := by
  intro c hc hl hk
  obtain rfl := hc.unique h
  exact hf c hc hl hk

theorem rest {f : List Char → Walk (Option α)} (hf : Performs bound text level start s (f s) x) :
    Performs bound text level start s (Walk.rest text >>= f) x := by
  intro c hc hl hk
  have hrun : (Walk.rest text >>= f).run c = (f s).run c := by
    rw [← hc.drop]
    rfl
  rw [hrun]
  exact hf c hc hl hk

theorem next {f : Option Char → Walk (Option α)}
    (hf : Performs bound text level start s (f s.head?) x) :
    Performs bound text level start s (Walk.next text >>= f) x := by
  intro c hc hl hk
  have hrun : (Walk.next text >>= f).run c = (f s.head?).run c := by
    rw [← hc.getElem?_eq]
    rfl
  rw [hrun]
  exact hf c hc hl hk

theorem next_is {d : Char} (h : Performs bound text level start (d :: s) g x)
    (f : Walk (Option α)) : Performs bound text level start (d :: s)
      (Walk.next text >>= fun e => if e ≠ some d then f else g) x :=
  .next (by rwa [List.head?_cons, if_neg (not_not.2 rfl)])

theorem next_is_not {d : Char} (hd : ∀ r, s ≠ d :: r)
    (h : Performs bound text level start s f x) (g : Walk (Option α)) :
    Performs bound text level start s
      (Walk.next text >>= fun e => if e ≠ some d then f else g) x := by
  have hhead : s.head? ≠ some d := by
    intro hs
    obtain ⟨r, rfl⟩ := List.head?_eq_some_iff.1 hs
    exact hd r rfl
  exact .next (by rwa [if_pos hhead])

theorem advance (h : Performs bound text level start s walk x) :
    Performs bound text level start (w ++ s) (Walk.advance w.length >>= fun _ => walk) x :=
  fun c hc hl hk => h { c with position := c.position + w.length } hc.advance hl hk

/-- A run of characters of a class is passed over. -/
theorem advance_while {p : Char → Bool}
    (h : Performs bound text level start (s.dropWhile p) walk x) :
    Performs bound text level start s
      (Walk.advance (s.takeWhile p).length >>= fun _ => walk) x := by
  have hadvance := advance (w := s.takeWhile p) h
  rwa [List.takeWhile_append_dropWhile] at hadvance

/-! What a walk finds decides about how it goes on. -/

theorem on {first : Walk (Option β)} {z : OptionT Id (β × List Char)} {q : List Char}
    {k : Option β → Walk (Option α)} (h : Performs bound text level n s first z)
    (hn : IsRest text n q)
    (hnone : z.run = none → Performs bound text level start q (k none) x)
    (hsome : ∀ b r m, z.run = some (b, r) → IsRest text m r →
      Performs bound text level start r (k (some b)) x) :
    Performs bound text level start s (first >>= k) x := by
  intro c hc hl hkept
  obtain ⟨hlands, hl', hkept'⟩ := h c hc hl hkept
  rw [StateT.run_bind]
  generalize first.run c = result at hlands hl' hkept' ⊢
  obtain ⟨found, after⟩ := result
  dsimp only at hlands hl' hkept'
  generalize hp : after.position = p at hlands
  generalize hz : z.run = answer at hlands
  cases hlands with
  | failed => exact hnone hz after (hp ▸ hn) hl' hkept'
  | @found b r _ hr => exact hsome b r p hz hr after (hp ▸ hr) hl' hkept'

/-- A rule that goes on with what another one gives. -/
protected theorem bind {first : Walk (Option β)} {z : OptionT Id (β × List Char)} {q : List Char}
    {k : Option β → Walk (Option α)} {l : β × List Char → OptionT Id (α × List Char)}
    (h : Performs bound text level n s first z) (hn : IsRest text n q)
    (hnone : Performs bound text level start q (k none) failure)
    (hsome : ∀ b r m, IsRest text m r →
      Performs bound text level start r (k (some b)) (l (b, r))) :
    Performs bound text level start s (first >>= k) (z >>= l) := by
  refine .on h hn (fun hz => hnone.congr ?_) fun b r m hz hm => (hsome b r m hm).congr ?_
  · rw [run_bind, hz]
    rfl
  · rw [run_bind, hz]
    rfl

/-- Alternatives are tried in order from the same place. -/
theorem first_cons {walks : List (Walk (Option α))} (hn : IsRest text n s)
    (h : Performs bound text level n s walk x)
    (hs : Performs bound text level n s (Walk.first walks) y) :
    Performs bound text level n s (Walk.first (walk :: walks)) (x <|> y) := by
  refine .on h hn (fun hx => hs.congr ?_) fun a r _ hx _ => (Performs.pure a).congr ?_
  · rw [run_orElse, hx, Option.none_or]
  · rw [run_orElse, hx, Option.some_or]
    rfl

theorem first_one (hn : IsRest text n s) (h : Performs bound text level n s walk x) :
    Performs bound text level n s (Walk.first [walk]) x := by
  refine (first_cons hn h (nothing hn)).congr ?_
  rw [run_orElse]
  exact Option.or_none

end Performs

theorem Walk.run_remember (rule : Costly) (walk : Walk (Option TypeExpr)) (c : Cursor) :
    (Walk.remember rule walk).run c =
      match c.kept.lookup ⟨rule, c.position, c.level⟩ with
      | some (some t, stop) => (some t, { c with position := stop })
      | some (none, _) => (none, c)
      | none => ((walk.run c).1, { (walk.run c).2 with
          kept := (⟨rule, c.position, c.level⟩, (walk.run c).1, (walk.run c).2.position) ::
            (walk.run c).2.kept }) := by
  simp only [Walk.remember, StateT.run_bind, StateT.run_get, pure_bind]
  cases c.kept.lookup ⟨rule, c.position, c.level⟩ with
  | none => rfl
  | some outcome =>
    obtain ⟨found, stop⟩ := outcome
    cases found <;> rfl

/-- What is kept was right, and what is right is kept. -/
theorem Follows.remember {bound : Int} {text : List Char} {level : Nat} (rule : Costly)
    {walk : Walk (Option TypeExpr)}
    (h : Follows bound text level walk (rule.answer (bound - level).toNat)) :
    Follows bound text level (Walk.remember rule walk) (rule.answer (bound - level).toNat) := by
  intro n s hs c hc hl hk
  obtain rfl := hc.unique hs
  rw [Walk.run_remember]
  cases hspot : c.kept.lookup ⟨rule, c.position, c.level⟩ with
  | some outcome =>
    obtain ⟨found, stop⟩ := outcome
    have hlands := hk _ _ hspot s hc
    rw [hl] at hlands
    cases found with
    | none =>
      have hstop : stop = c.position := hlands.eq_start rfl
      exact ⟨hstop ▸ hlands, hl, hk⟩
    | some t => exact ⟨hlands, hl, hk⟩
  | none =>
    obtain ⟨hlands, hl', hk'⟩ := h _ s hs c hc hl hk
    -- what the walk itself keeps is right already; only the entry for this spot is new
    refine ⟨hlands, hl', hk'.cons fun r hr => ?_⟩
    have hrs : r = s := hr.drop.symm.trans hc.drop
    rw [hrs, hl]
    exact hlands

/-! ### Words -/

section Words

variable {bound : Int} {text : List Char} {level : Nat}

theorem keyword_follows : Follows bound text level (Walk.keyword text) Rule.keyword := by
  intro n s hs
  refine .rest ?_
  rw [Rule.keyword]
  cases hk : keyword? s with
  | none => exact .nothing hs
  | some p =>
    obtain ⟨k, r⟩ := p
    obtain ⟨-, rfl⟩ := mem_keywords_of_keyword? hk
    exact .advance (.pure _)

theorem className_follows : Follows bound text level (Walk.className text) Rule.className := by
  intro n s hs
  refine .rest ?_
  rw [Rule.className]
  cases hn : className? s with
  | none => exact .nothing hs
  | some p =>
    obtain ⟨m, r⟩ := p
    obtain ⟨-, rfl⟩ := className?_sound hn
    exact .advance (.pure _)

theorem withLevels_performs (start : Nat) (base : TypeExpr) (s : List Char) :
    Performs bound text level start s (Walk.withLevels text start base)
      (Rule.withLevels (base, s)) := by
  have hs := levels_append s
  refine .rest ?_
  rw [Rule.withLevels]
  generalize levels s = p at hs ⊢
  obtain ⟨n, r⟩ := p
  dsimp only at hs ⊢
  rw [hs, ← length_pairs n]
  refine .advance ?_
  split_ifs with h
  · exact .pure _
  · exact .giveUp

/-- A closing bracket that is looked for. -/
theorem close_performs (start : Nat) (t : TypeExpr) (s : List Char) :
    Performs bound text level start s (Walk.close text start t)
      (match s with
        | '>' :: r => pure (t, r)
        | _ => failure) := by
  split
  next r =>
    exact .next_is (.advance (w := ['>']) (.pure t)) _
  next hs =>
    exact .next_is_not hs .giveUp _

end Words

/-! ### Productions -/

section Productions

variable {bound : Int} {text : List Char} {level : Nat} {walks : Stop → Walk (Option TypeExpr)}
  {rules : Stop → Rule Id}

theorem readGroup_follows (hn : ∀ stop, Follows bound text level (walks stop) (rules stop)) :
    Follows bound text level (Walk.readGroup text walks) (Rule.group .direct rules) := by
  intro n s hs
  refine .position hs ?_
  unfold Rule.group
  split
  next r =>
    refine .next_is (.advance (w := ['(']) ?_) _
    refine .bind (hn _ _ r hs.tail) hs.tail .giveUp fun t q _ _ => ?_
    dsimp only
    split
    next => exact .next_is (.advance (w := [')']) (withLevels_performs _ _ _)) _
    next hq =>
      exact .next_is_not hq .giveUp _
  next hr =>
    exact .next_is_not hr (.nothing hs) _

/-- The word in front of a generic decides about its collection. -/
theorem collection?_eq (s : List Char) : Rule.collection? s =
    (Rule.keyword (m := Id) s <|> Rule.className s).run.bind fun p =>
      (Walk.collectionOf p.1).map fun c => (c, p.2) := by
  rw [run_orElse, Rule.keyword, Rule.className, run_settled, run_settled, Rule.collection?]
  cases keyword? s with
  | some p =>
    simp only [Option.map_some, Option.some_or, Option.bind_some, Walk.collectionOf]
    split_ifs <;> rfl
  | none =>
    rw [Option.map_none, Option.none_or]
    cases className? s <;> rfl

theorem readGeneric_follows (hn : ∀ stop, Follows bound text level (walks stop) (rules stop)) :
    Follows bound text level (Walk.readGeneric text walks) (Rule.generic .direct rules) := by
  intro n s hs
  have hword : Performs bound text level n s (Walk.first [Walk.keyword text, Walk.className text])
      (Rule.keyword s <|> Rule.className s) :=
    .first_cons hs (keyword_follows n s hs) (.first_one hs (className_follows n s hs))
  refine .position hs ?_
  rw [Rule.generic, collection?_eq]
  refine .on hword hs (fun hw => ?_) fun word r m hw hm => ?_
  · rw [hw]
    exact .nothing hs
  · rw [hw]
    dsimp only [Option.bind_some]
    cases hc : Walk.collectionOf word with
    | none => exact .giveUp
    | some c =>
      dsimp only [Option.map_some]
      split
      next c' q he =>
        cases he
        refine .next_is (.advance (w := ['<']) ?_) _
        refine .bind (hn _ _ q hm.tail) hm.tail .giveUp fun t q m hm => ?_
        dsimp only
        split
        next => exact .next_is_not (by simp) (close_performs n _ _) _
        next q =>
          have hrest : IsRest text (m + 1 + (q.takeWhile isGap).length) (q.dropWhile isGap) :=
            .advance (List.takeWhile_append_dropWhile.symm ▸ hm.tail)
          refine .next_is (.advance (w := [',']) (.rest (.advance_while ?_))) _
          exact .bind (hn _ _ _ hrest) hrest .giveUp fun v q _ _ => close_performs n _ q
        next hangle hcomma =>
          exact .next_is_not hcomma (.next_is_not hangle .giveUp _) _
      next hangle =>
        exact .next_is_not (fun q hq => hangle c q (by rw [hq])) .giveUp _

/-! Nested expressions one level deeper are at hand. -/

variable (hn : ∀ stop, Follows bound text level (walks stop)
  (nested .direct (bound - level).toNat stop))

include hn

theorem group_follows : Follows bound text level (Walk.group text walks)
    (Rule.group .direct (nested .direct (bound - level).toNat)) :=
  .remember .group (readGroup_follows hn)

theorem generic_follows : Follows bound text level (Walk.generic text walks)
    (Rule.generic .direct (nested .direct (bound - level).toNat)) :=
  .remember .generic (readGeneric_follows hn)

theorem leveled_follows : Follows bound text level (Walk.leveled text walks)
    (Rule.leveled .direct (nested .direct (bound - level).toNat)) := by
  intro n s hs
  refine .position hs (.bind ?_ hs (.nothing hs) fun base r _ _ => withLevels_performs n base r)
  exact .first_cons hs (keyword_follows n s hs) (.first_cons hs (generic_follows hn n s hs)
    (.first_cons hs (className_follows n s hs) (.first_one hs (group_follows hn n s hs))))

theorem array_follows : Follows bound text level (Walk.array text walks)
    (Rule.array .direct (nested .direct (bound - level).toNat)) := fun n s hs =>
  .first_cons hs (leveled_follows hn n s hs) (.first_cons hs (group_follows hn n s hs)
    (.first_one hs (generic_follows hn n s hs)))

theorem type_follows : Follows bound text level (Walk.type text walks)
    (Rule.type .direct (nested .direct (bound - level).toNat)) := fun n s hs =>
  .first_cons hs (array_follows hn n s hs) (.first_cons hs (keyword_follows n s hs)
    (.first_one hs (className_follows n s hs)))

/-- Whichever member fails, the cursor is put back in front of the first one. -/
theorem members_performs (stop : Stop) {start : Nat} {whole : List Char}
    (hstart : IsRest text start whole) (fuel : Nat) :
    ∀ n s, IsRest text n s → Performs bound text level start s
      (Walk.members text walks stop start fuel)
      (Rule.members .direct (nested .direct (bound - level).toNat) stop fuel s) := by
  induction fuel with
  | zero => intro n s _; exact .giveUp
  | succ fuel ih =>
    intro n s hs
    refine .bind (type_follows hn n s hs) hs .giveUp fun t r m hm => .next ?_
    cases r with
    | nil => exact .pure _
    | cons c q =>
      dsimp only [List.head?_cons]
      by_cases hstop : stop c = true
      · rw [if_pos hstop, if_pos hstop]
        exact .pure _
      rw [if_neg hstop, if_neg hstop]
      by_cases hbar : c = '|'
      · subst hbar
        rw [if_neg (not_not.2 rfl), if_pos rfl]
        refine .advance (w := ['|']) (.bind (ih _ q hm.tail) hstart (.nothing hstart) ?_)
        exact fun _ _ _ _ => .pure _
      · rw [if_pos hbar, if_neg hbar]
        exact .giveUp

theorem expression_follows (stop : Stop) :
    Follows bound text level (Walk.expression text walks stop)
      (Rule.expression .direct (nested .direct (bound - level).toNat) stop) := by
  intro n s hs
  have hlen : text.length - n = s.length := by
    have := hs.add_length
    omega
  refine .position hs ?_
  rw [hlen]
  exact .bind (members_performs hn stop hs _ n s hs) hs (.nothing hs) fun _ _ _ _ => .pure _

end Productions

/-- A walk compares the level with the bound, a rule counts the levels that are left. -/
theorem nested_follows (bound : Int) (text : List Char) (left : Nat) :
    ∀ (level : Nat) (stop : Stop), left = (bound - level).toNat →
      Follows bound text level (Walk.nested text bound left stop)
        (nested .direct (bound - level).toNat stop) := by
  induction left with
  | zero =>
    intro level stop hl n s hs
    rw [← hl]
    exact .nothing hs
  | succ left ih =>
    intro level stop hl n s hs c hc hlevel hk
    have hnext : left = (bound - (level + 1 : Nat)).toNat := by omega
    have hlt : ¬ bound ≤ (c.level : Int) := by omega
    have hrun : (Walk.nested text bound (left + 1) stop).run c =
        let result := (Walk.expression text (Walk.nested text bound left) stop).run
          { c with level := c.level + 1 }
        (result.1, { result.2 with level := result.2.level - 1 }) := by
      simp only [Walk.nested, StateT.run_bind, StateT.run_get, pure_bind]
      rw [if_neg hlt]
      rfl
    obtain ⟨hlands, hl', hk'⟩ := expression_follows (fun stop => ih (level + 1) stop hnext) stop
      n s hs { c with level := c.level + 1 } hc (by rw [hlevel]) hk
    rw [hrun, ← hl]
    rw [← hnext] at hlands
    exact ⟨hlands, Nat.sub_eq_of_eq_add hl', hk'⟩

end DocComment.TypeExpr
