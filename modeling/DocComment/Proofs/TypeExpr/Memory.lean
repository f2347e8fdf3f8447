import DocComment.Proofs.TypeExpr.Soundness
import DocComment.TypeExpr.Reader

/-! Keeping answers changes nothing. From a correct memory every rule gives the answer of the rule
that keeps nothing, and leaves a correct memory at the same level behind; this is shown once for
each way of combining rules, and then for the rules along their definitions. -/

namespace DocComment.TypeExpr

open Text

/-- The empty memory is correct for every text. -/
theorem Memory.correct_empty (bound : Nat) (text : List Char) :
    Memory.Correct bound text {} := by
  intro place answer h
  exact absurd h (by simp)

/-- From a correct memory at a level, `p` gives the answer of `q` and leaves a correct
memory at that level. -/
def Simulates {α : Type} (bound : Nat) (text : List Char) (level : Nat)
    (p : OptionT (StateM Memory) α) (q : OptionT Id α) : Prop :=
  ∀ memory : Memory, memory.level = level → memory.Correct bound text →
    (p.run memory).1 = q.run ∧ (p.run memory).2.level = level ∧
      (p.run memory).2.Correct bound text

section Run

variable {α β : Type}

theorem run_bind_memory (p : OptionT (StateM Memory) α) (f : α → OptionT (StateM Memory) β)
    (memory : Memory) : (p >>= f).run memory =
      match p.run memory with
      | (some a, after) => (f a).run after
      | (none, after) => (none, after) := by
  rw [OptionT.run_bind]
  simp only [Option.elimM, bind, StateT.bind]
  rcases p.run memory with ⟨_ | a, after⟩ <;> rfl

theorem run_orElse_memory (p q : OptionT (StateM Memory) α) (memory : Memory) :
    (p <|> q).run memory =
      match p.run memory with
      | (some a, after) => (some a, after)
      | (none, after) => q.run after := by
  rw [OptionT.run_orElse]
  simp only [Option.elimM, bind, StateT.bind]
  rcases p.run memory with ⟨_ | a, after⟩ <;> rfl

end Run

namespace Simulates

variable {α β : Type} {bound level : Nat} {text : List Char}

protected theorem pure (a : α) : Simulates bound text level (pure a) (pure a) :=
  fun _ hl hc => ⟨rfl, hl, hc⟩

protected theorem failure : Simulates bound text level (failure : OptionT (StateM Memory) α)
    failure :=
  fun _ hl hc => ⟨rfl, hl, hc⟩

protected theorem settled (o : Option Parsed) :
    Simulates bound text level (Rule.settled o) (Rule.settled o) := by
  cases o with
  | none => exact .failure
  | some p => exact .pure p

protected theorem bind {p : OptionT (StateM Memory) α} {q : OptionT Id α}
    {f : α → OptionT (StateM Memory) β} {g : α → OptionT Id β}
    (h : Simulates bound text level p q)
    (hf : ∀ a, q.run = some a → Simulates bound text level (f a) (g a)) :
    Simulates bound text level (p >>= f) (q >>= g) := by
  intro memory hl hc
  obtain ⟨ha, hl', hc'⟩ := h memory hl hc
  rw [run_bind, run_bind_memory, ← ha]
  rcases hp : p.run memory with ⟨_ | a, after⟩
  · rw [hp] at hl' hc'
    exact ⟨rfl, hl', hc'⟩
  · rw [hp] at ha hl' hc'
    exact hf a ha.symm after hl' hc'

protected theorem orElse {p p' : OptionT (StateM Memory) α} {q q' : OptionT Id α}
    (h : Simulates bound text level p q) (h' : Simulates bound text level p' q') :
    Simulates bound text level (p <|> p') (q <|> q') := by
  intro memory hl hc
  obtain ⟨ha, hl', hc'⟩ := h memory hl hc
  rw [run_orElse, run_orElse_memory, ← ha]
  rcases hp : p.run memory with ⟨_ | a, after⟩
  · rw [hp] at hl' hc'
    exact h' after hl' hc'
  · rw [hp] at hl' hc'
    exact ⟨rfl, hl', hc'⟩

/-- A kept answer was the right one, and a right one is kept. -/
protected theorem remember {rule : Costly} {s : List Char} (hs : s <:+ text)
    {p : OptionT (StateM Memory) Parsed} {q : OptionT Id Parsed}
    (hq : q = rule.answer (bound - level) s) (h : Simulates bound text level p q) :
    Simulates bound text level (Memory.remember rule s p) q := by
  subst hq
  intro memory hl hc
  obtain ⟨ha, hl', hc'⟩ := h memory hl hc
  cases hk : memory.answers.lookup ⟨rule, s.length, memory.level⟩ with
  | some answer =>
    have hrun : (Memory.remember rule s p).run memory = (answer, memory) := by
      simp only [Memory.remember, OptionT.run, hk]
    rw [hrun]
    refine ⟨?_, hl, hc⟩
    have := hc _ _ hk s hs rfl
    rwa [hl] at this
  | none =>
    have hrun : (Memory.remember rule s p).run memory = ((p.run memory).1,
        { (p.run memory).2 with answers :=
          (⟨rule, s.length, memory.level⟩, (p.run memory).1) :: (p.run memory).2.answers }) := by
      simp only [Memory.remember, OptionT.run, hk]
      rfl
    rw [hrun]
    refine ⟨ha, hl', fun place answer hp r hr hlen => ?_⟩
    by_cases he : place = ⟨rule, s.length, memory.level⟩
    · subst he
      -- the text has one suffix of each length, so the place tells the text that is left
      have hrs : r = s := (List.suffix_of_suffix_length_le hr hs hlen.le).eq_of_length hlen
      have hans : answer = (p.run memory).1 := by
        rw [List.lookup_cons_self] at hp
        exact (Option.some.inj hp).symm
      rw [hans, ha, hrs, hl]
    · have hne : (place == ⟨rule, s.length, memory.level⟩) = false := by simpa using he
      simp only [List.lookup_cons, hne] at hp
      exact hc' place answer hp r hr hlen

protected theorem deeper {p : OptionT (StateM Memory) Parsed} {q : OptionT Id Parsed}
    (h : Simulates bound text (level + 1) p q) :
    Simulates bound text level (Memory.deeper p) q := by
  intro memory hl hc
  obtain ⟨ha, hl', hc'⟩ := h { memory with level := memory.level + 1 } (by simp [hl]) hc
  have hrun : (Memory.deeper p).run memory =
      ((p.run { memory with level := memory.level + 1 }).1,
        { (p.run { memory with level := memory.level + 1 }).2 with
          level := (p.run { memory with level := memory.level + 1 }).2.level - 1 }) := rfl
  rw [hrun]
  exact ⟨ha, by simp [hl'], hc'⟩

end Simulates

/-! ### The rules -/

/-- At a level, nested expressions simulate those that keep nothing. -/
def NestedSimulates (bound : Nat) (text : List Char) (level : Nat)
    (kept : Stop → Rule (StateM Memory)) : Prop :=
  ∀ stop s, s <:+ text →
    Simulates bound text level (kept stop s) (nested .direct (bound - level) stop s)

namespace Rule

variable {bound level : Nat} {text : List Char} {kept : Stop → Rule (StateM Memory)}

theorem withLevels_simulates (p : Parsed) :
    Simulates bound text level (withLevels p) (withLevels p) := .settled _

theorem group_simulates (hn : NestedSimulates bound text level kept) {s : List Char}
    (hs : s <:+ text) : Simulates bound text level (group .keeping kept s)
      (group .direct (nested .direct (bound - level)) s) := by
  unfold group
  split
  next r =>
    refine .remember hs rfl ?_
    refine .bind (hn _ r ((List.suffix_cons _ r).trans hs)) fun ⟨t, q⟩ _ => ?_
    dsimp only
    split
    · exact withLevels_simulates _
    · exact .failure
  next => exact .failure

theorem generic_simulates (hn : NestedSimulates bound text level kept) {s : List Char}
    (hs : s <:+ text) : Simulates bound text level (generic .keeping kept s)
      (generic .direct (nested .direct (bound - level)) s) := by
  unfold generic
  split
  next c r hc =>
    obtain ⟨name, -, he⟩ := collection?_sound hc
    have hr : r <:+ text := (he ▸ (List.suffix_cons _ r).trans (List.suffix_append name _)).trans hs
    refine .remember hs (by simp only [Costly.answer, generic, hc]) ?_
    refine .bind (hn _ r hr) fun ⟨t, q⟩ ht => ?_
    obtain ⟨n, w, -, hw, -⟩ := nested_sound _ _ _ _ _ ht
    dsimp only
    split
    next => exact .pure _
    next q =>
      have hq : q.dropWhile isGap <:+ text :=
        ((List.dropWhile_suffix _).trans
          (hw ▸ (List.suffix_cons _ q).trans (List.suffix_append w _))).trans hr
      refine .bind (hn _ _ hq) fun ⟨v, q⟩ _ => ?_
      dsimp only
      split
      · exact .pure _
      · exact .failure
    next => exact .failure
  next => exact .failure

theorem leveled_simulates (hn : NestedSimulates bound text level kept) {s : List Char}
    (hs : s <:+ text) : Simulates bound text level (leveled .keeping kept s)
      (leveled .direct (nested .direct (bound - level)) s) :=
  .bind (.orElse (.settled _) (.orElse (generic_simulates hn hs)
    (.orElse (.settled _) (group_simulates hn hs)))) fun p _ => withLevels_simulates p

theorem array_simulates (hn : NestedSimulates bound text level kept) {s : List Char}
    (hs : s <:+ text) : Simulates bound text level (array .keeping kept s)
      (array .direct (nested .direct (bound - level)) s) :=
  .orElse (leveled_simulates hn hs) (.orElse (group_simulates hn hs) (generic_simulates hn hs))

theorem type_simulates (hn : NestedSimulates bound text level kept) {s : List Char}
    (hs : s <:+ text) : Simulates bound text level (type .keeping kept s)
      (type .direct (nested .direct (bound - level)) s) :=
  .orElse (array_simulates hn hs) (.orElse (.settled _) (.settled _))

theorem members_simulates (hn : NestedSimulates bound text level kept) (stop : Stop) (fuel : Nat) :
    ∀ s, s <:+ text → Simulates bound text level (members .keeping kept stop fuel s)
      (members .direct (nested .direct (bound - level)) stop fuel s) := by
  induction fuel with
  | zero => intro s _; exact .failure
  | succ fuel ih =>
    intro s hs
    refine .bind (type_simulates hn hs) fun ⟨t, r⟩ ht => ?_
    obtain ⟨n, w, -, hw, -⟩ := type_sound (nested_sound _) ht
    dsimp only
    split
    next => exact .pure _
    next c q =>
      split
      · exact .pure _
      · split
        · have hq : q <:+ text :=
            (hw ▸ (List.suffix_cons _ q).trans (List.suffix_append w _)).trans hs
          exact .bind (ih q hq) fun _ _ => .pure _
        · exact .failure

theorem expression_simulates (hn : NestedSimulates bound text level kept) (stop : Stop)
    {s : List Char} (hs : s <:+ text) :
    Simulates bound text level (expression .keeping kept stop s)
      (expression .direct (nested .direct (bound - level)) stop s) :=
  .bind (members_simulates hn stop _ s hs) fun _ _ => .pure _

end Rule

/-- The levels that are left tell the level, up to the bound. -/
theorem nested_simulates (bound : Nat) (text : List Char) (allowed : Nat) :
    ∀ level, allowed = bound - level →
      NestedSimulates bound text level (nested .keeping allowed) := by
  induction allowed with
  | zero =>
    intro level hl stop s _
    rw [← hl]
    exact .failure
  | succ allowed ih =>
    intro level hl stop s hs
    have hnext : allowed = bound - (level + 1) := by omega
    rw [← hl]
    refine .deeper ?_
    rw [hnext]
    exact Rule.expression_simulates (hnext ▸ ih (level + 1) hnext) stop hs

theorem whole_simulates (bound : Nat) (text : List Char) :
    Simulates bound text 0 (whole .keeping bound text) (whole .direct bound text) :=
  Rule.expression_simulates (nested_simulates bound text bound 0 rfl) _ (List.suffix_refl text)

namespace Reader

/-- A reader gives what the rules give, whatever it has read before. -/
theorem read_eq (reader : Reader) (s : List Char) :
    (reader.read s).1 = (whole .direct reader.bound.toNat s).run.map Prod.fst := by
  obtain ⟨ha, -⟩ := whole_simulates reader.bound.toNat s {} rfl (Memory.correct_empty _ _)
  rw [← ha]
  rfl

end Reader

/-- Keeping answers changes no answer. -/
theorem parse?_eq_derive? (asked : Int) (text : String) : parse? asked text = derive? asked text :=
  Reader.read_eq (Reader.new asked) text.toList

end DocComment.TypeExpr
