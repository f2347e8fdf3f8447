import DocComment.Proofs.TypeExpr.Word
import DocComment.TypeExpr.Rule
import Mathlib.Data.List.TakeWhile

/-! What the rules read is what the grammar derives. Rules that keep no answers are
functions with an optional answer; each of them takes a text off the front that the
grammar gives the same type, with no more nesting than is allowed. The rules commit to
the first alternative that matches, which soundness does not care about, with one
exception: a class name is only looked at where no keyword was found. -/

namespace DocComment.TypeExpr

open Text Grammar

section Run

variable {α β : Type}

theorem run_bind (x : OptionT Id α) (f : α → OptionT Id β) :
    (x >>= f).run = Option.bind x.run fun a => (f a).run := by
  rw [OptionT.run_bind]
  cases x.run <;> rfl

theorem run_orElse (x y : OptionT Id α) : (x <|> y).run = Option.or x.run y.run := by
  rw [OptionT.run_orElse]
  cases x.run <;> rfl

theorem run_bind_eq_some_iff {x : OptionT Id α} {f : α → OptionT Id β} {b : β} :
    (x >>= f).run = some b ↔ ∃ a, x.run = some a ∧ (f a).run = some b := by
  rw [run_bind]
  exact Option.bind_eq_some_iff

theorem run_orElse_eq_some_iff {x y : OptionT Id α} {a : α} :
    (x <|> y).run = some a ↔ x.run = some a ∨ x.run = none ∧ y.run = some a := by
  rw [run_orElse]
  exact Option.or_eq_some_iff

theorem run_settled (o : Option Parsed) : (Rule.settled (m := Id) o).run = o := by
  cases o <;> rfl

end Run

/-- Nested expressions are read as the grammar has them, with less nesting than allowed. -/
def NestedSound (allowed : Nat) (nested : Stop → Rule Id) : Prop :=
  ∀ stop s t r, (nested stop s).run = some (t, r) →
    ∃ n w, n < allowed ∧ s = w ++ r ∧ Expression n w t

namespace Rule

theorem keyword_sound {s r : List Char} {t : TypeExpr}
    (h : (keyword (m := Id) s).run = some (t, r)) :
    ∃ k ∈ keywords, t = .keyword k ∧ s = k.toList ++ r := by
  rw [keyword, run_settled] at h
  obtain ⟨⟨k, q⟩, hk, he⟩ := Option.map_eq_some_iff.1 h
  simp only [Prod.mk.injEq] at he
  obtain ⟨rfl, rfl⟩ := he
  obtain ⟨hm, hs⟩ := mem_keywords_of_keyword? hk
  exact ⟨k, hm, rfl, hs⟩

theorem keyword_eq_none {s : List Char} (h : (keyword (m := Id) s).run = none) :
    keyword? s = none := by
  rwa [keyword, run_settled, Option.map_eq_none_iff] at h

/-- Where no keyword was found, what is read as a class name begins with none. -/
theorem className_sound {s r : List Char} {t : TypeExpr} (hk : keyword? s = none)
    (h : (className (m := Id) s).run = some (t, r)) :
    ∃ n, IsClassName n ∧ t = .className (String.ofList n) ∧ s = n ++ r := by
  rw [className, run_settled] at h
  obtain ⟨⟨n, q⟩, hn, he⟩ := Option.map_eq_some_iff.1 h
  simp only [Prod.mk.injEq] at he
  obtain ⟨rfl, rfl⟩ := he
  obtain ⟨hname, rfl⟩ := className?_sound hn
  refine ⟨n, ⟨hname, fun k hmem hp => ?_⟩, rfl, rfl⟩
  exact keyword?_eq_none_iff.1 hk k hmem (hp.trans (List.prefix_append n q))

theorem withLevels_sound {base t : TypeExpr} {s r : List Char}
    (h : (withLevels (m := Id) (base, s)).run = some (t, r)) :
    ∃ n : { n : Nat // 0 < n }, t = .array base n ∧ s = pairs n ++ r ∧ (levels r).1 = 0 := by
  have hs := levels_append s
  have hz := levels_levels s
  simp only [withLevels, run_settled] at h
  split at h
  next hpos =>
    cases h
    exact ⟨⟨_, hpos⟩, rfl, hs, hz⟩
  next => exact absurd h (by simp)

theorem collection?_sound {s r : List Char} {c : Option String}
    (h : collection? s = some (c, r)) : ∃ name, IsCollection name c ∧ s = name ++ r := by
  unfold collection? at h
  split at h
  next k q hk =>
    obtain ⟨-, rfl⟩ := mem_keywords_of_keyword? hk
    split at h
    next he =>
      subst he
      simp only [Option.some.injEq, Prod.mk.injEq] at h
      obtain ⟨rfl, rfl⟩ := h
      exact ⟨_, .array, rfl⟩
    next => exact absurd h (by simp)
  next hk =>
    obtain ⟨⟨n, q⟩, hn, he⟩ := Option.map_eq_some_iff.1 h
    simp only [Prod.mk.injEq] at he
    obtain ⟨rfl, rfl⟩ := he
    obtain ⟨hname, rfl⟩ := className?_sound hn
    refine ⟨n, .className ⟨hname, fun k hmem hp => ?_⟩, rfl⟩
    exact keyword?_eq_none_iff.1 hk k hmem (hp.trans (List.prefix_append n q))

/-- A collection without a name is the keyword `array`. -/
theorem collection?_ne_none {s r : List Char} {c : Option String} (hk : keyword? s = none)
    (h : collection? s = some (c, r)) : ∃ n, c = some n := by
  rw [collection?, hk] at h
  obtain ⟨⟨n, q⟩, -, he⟩ := Option.map_eq_some_iff.1 h
  simp only [Prod.mk.injEq] at he
  exact ⟨_, he.1.symm⟩

variable {allowed : Nat} {nested : Stop → Rule Id}

theorem group_sound (hn : NestedSound allowed nested) {s r : List Char} {t : TypeExpr}
    (h : (group .direct nested s).run = some (t, r)) :
    ∃ n w, n ≤ allowed ∧ s = w ++ r ∧ Single n w t ∧ (levels r).1 = 0 := by
  unfold group at h
  split at h
  next q =>
    obtain ⟨⟨u, q⟩, hu, h⟩ := run_bind_eq_some_iff.1 h
    obtain ⟨n, w, hlt, rfl, v, vs, hm, rfl⟩ := hn _ _ _ _ hu
    dsimp only at h
    split at h
    · obtain ⟨l, rfl, rfl, hz⟩ := withLevels_sound h
      exact ⟨n + 1, _, hlt, by simp, .group hm l, hz⟩
    · exact absurd h (by simp)
  next => exact absurd h (by simp)

theorem generic_sound (hn : NestedSound allowed nested) {s r : List Char} {t : TypeExpr}
    (h : (generic .direct nested s).run = some (t, r)) :
    ∃ n w c q, n ≤ allowed ∧ s = w ++ r ∧ collection? s = some (c, q) ∧ Generic n w c t := by
  unfold generic at h
  split at h
  next c q hc =>
    obtain ⟨name, hname, rfl⟩ := collection?_sound hc
    obtain ⟨⟨u, q⟩, hu, h⟩ := run_bind_eq_some_iff.1 h
    obtain ⟨n, w, hlt, rfl, v, vs, hm, rfl⟩ := hn _ _ _ _ hu
    dsimp only at h
    split at h
    next =>
      simp only [OptionT.run_pure] at h
      cases h
      exact ⟨n + 1, _, c, _, hlt, by simp, hc, .value hname hm⟩
    next q _ =>
      obtain ⟨⟨u, q'⟩, hu, h⟩ := run_bind_eq_some_iff.1 h
      obtain ⟨k, x, hlt', hq, y, ys, hx, rfl⟩ := hn _ _ _ _ hu
      dsimp only at h
      split at h
      · simp only [OptionT.run_pure] at h
        cases h
        have hgap : ∀ d ∈ q.takeWhile isGap, isGap d = true := fun d hd =>
          List.mem_takeWhile_imp hd
        have hsplit := List.takeWhile_append_dropWhile (p := isGap) (l := q)
        rw [hq] at hsplit
        refine ⟨max n k + 1, _, c, _, by omega, ?_, hc, .keyed hname hm hgap hx⟩
        simp [hsplit]
      · exact absurd h (by simp)
    next => exact absurd h (by simp)
  next => exact absurd h (by simp)

theorem leveled_sound (hn : NestedSound allowed nested) {s r : List Char} {t : TypeExpr}
    (h : (leveled .direct nested s).run = some (t, r)) :
    ∃ n w, n ≤ allowed ∧ s = w ++ r ∧ Single n w t := by
  obtain ⟨⟨base, q⟩, hb, hl⟩ := run_bind_eq_some_iff.1 h
  obtain ⟨l, rfl, rfl, -⟩ := withLevels_sound hl
  rcases run_orElse_eq_some_iff.1 hb with hb | ⟨hk, hb⟩
  · obtain ⟨k, hk, rfl, rfl⟩ := keyword_sound hb
    exact ⟨0, _, Nat.zero_le _, by simp, .keywordArray hk l⟩
  have hk := keyword_eq_none hk
  rcases run_orElse_eq_some_iff.1 hb with hb | ⟨-, hb⟩
  · obtain ⟨n, w, c, _, hle, rfl, hc, hg⟩ := generic_sound hn hb
    obtain ⟨c, rfl⟩ := collection?_ne_none hk hc
    exact ⟨n, _, hle, by simp, .genericArray hg l⟩
  rcases run_orElse_eq_some_iff.1 hb with hb | ⟨-, hb⟩
  · obtain ⟨n, hn, rfl, rfl⟩ := className_sound hk hb
    exact ⟨0, _, Nat.zero_le _, by simp, .classArray hn l⟩
  · -- a group has taken all levels behind it, so it is never the base of further ones
    obtain ⟨n, w, -, -, -, hz⟩ := group_sound hn hb
    have hp := l.2
    cases hl' : l.1 with
    | zero => omega
    | succ n => simp [hl', pairs, levels] at hz

theorem type_sound (hn : NestedSound allowed nested) {s r : List Char} {t : TypeExpr}
    (h : (type .direct nested s).run = some (t, r)) :
    ∃ n w, n ≤ allowed ∧ s = w ++ r ∧ Single n w t := by
  rcases run_orElse_eq_some_iff.1 h with h | ⟨-, h⟩
  · rcases run_orElse_eq_some_iff.1 h with h | ⟨-, h⟩
    · exact leveled_sound hn h
    rcases run_orElse_eq_some_iff.1 h with h | ⟨-, h⟩
    · obtain ⟨n, w, hle, hs, hg, -⟩ := group_sound hn h
      exact ⟨n, w, hle, hs, hg⟩
    · obtain ⟨n, w, c, _, hle, hs, -, hg⟩ := generic_sound hn h
      exact ⟨n, w, hle, hs, .generic hg⟩
  rcases run_orElse_eq_some_iff.1 h with h | ⟨hk, h⟩
  · obtain ⟨k, hk, rfl, hs⟩ := keyword_sound h
    exact ⟨0, _, Nat.zero_le _, hs, .keyword hk⟩
  · obtain ⟨n, hn, rfl, hs⟩ := className_sound (keyword_eq_none hk) h
    exact ⟨0, _, Nat.zero_le _, hs, .className hn⟩

/-- Reading members ends where the text ends or at a character that stops. -/
theorem members_sound (hn : NestedSound allowed nested) (stop : Stop) (fuel : Nat) :
    ∀ s t ts r, (members .direct nested stop fuel s).run = some ((t, ts), r) →
      (∃ n w, n ≤ allowed ∧ s = w ++ r ∧ Members n w t ts) ∧ ∀ c ∈ r.head?, stop c = true := by
  induction fuel with
  | zero => intro s t ts r h; exact absurd h (by simp [members])
  | succ fuel ih =>
    intro s t ts r h
    obtain ⟨⟨u, q⟩, hu, hm⟩ := run_bind_eq_some_iff.1 h
    obtain ⟨n, w, hle, rfl, hw⟩ := type_sound hn hu
    dsimp only at hm
    split at hm
    · cases hm
      exact ⟨⟨n, w, hle, rfl, .one hw⟩, by simp⟩
    · split at hm
      next hstop =>
        cases hm
        exact ⟨⟨n, w, hle, rfl, .one hw⟩, by simpa using hstop⟩
      next =>
        split at hm
        next hbar =>
          obtain ⟨⟨⟨v, vs⟩, q'⟩, hv, hp⟩ := run_bind_eq_some_iff.1 hm
          cases hp
          obtain ⟨⟨k, x, hle', rfl, hx⟩, hr⟩ := ih _ _ _ _ hv
          exact ⟨⟨max n k, _, by omega, by simp [hbar], .more hw hx⟩, hr⟩
        next => exact absurd hm (by simp)

theorem expression_sound (hn : NestedSound allowed nested) {stop : Stop} {s r : List Char}
    {t : TypeExpr} (h : (expression .direct nested stop s).run = some (t, r)) :
    (∃ n w, n ≤ allowed ∧ s = w ++ r ∧ Expression n w t) ∧ ∀ c ∈ r.head?, stop c = true := by
  obtain ⟨⟨⟨u, us⟩, q⟩, hu, h⟩ := run_bind_eq_some_iff.1 h
  cases h
  obtain ⟨⟨n, w, hle, hs, hm⟩, hr⟩ := members_sound hn stop _ _ _ _ _ hu
  exact ⟨⟨n, w, hle, hs, u, us, hm, rfl⟩, hr⟩

end Rule

/-- With every level that is allowed the rules stay sound. -/
theorem nested_sound (allowed : Nat) : NestedSound allowed (nested .direct allowed) := by
  induction allowed with
  | zero => intro stop s t r h; exact absurd h (by simp [nested])
  | succ allowed ih =>
    intro stop s t r h
    obtain ⟨⟨n, w, hle, hs, he⟩, -⟩ := Rule.expression_sound ih h
    exact ⟨n, w, by omega, hs, he⟩

theorem whole_sound {allowed : Nat} {s r : List Char} {t : TypeExpr}
    (h : (whole .direct allowed s).run = some (t, r)) :
    r = [] ∧ ∃ n, n ≤ allowed ∧ Expression n s t := by
  obtain ⟨⟨n, w, hle, rfl, he⟩, hr⟩ := Rule.expression_sound (nested_sound allowed) h
  cases r with
  | nil => exact ⟨rfl, n, hle, by simpa using he⟩
  | cons c r => exact absurd (hr c (by simp)) (by simp)

end DocComment.TypeExpr
