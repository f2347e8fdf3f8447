import DocComment.Proofs.Text.Lines
import DocComment.Proofs.TypeExpr.Echo
import DocComment.TypeExpr.Canonical

/-! A type is written as the text that it was read from, with one space behind each comma, when
every group of that text holds a bar of its own. A single type holds no bar outside brackets,
so a group with a bar is a union, and a union is written with its parentheses. All else is
written as it stands, by induction on the derivation in front of any rest. -/

namespace DocComment.TypeExpr

open Text

/-! ### Words -/

/-- The characters that keep the words of a type expression apart. -/
def marks : List Char := ['(', '|', ',', '>', ')', '<']

/-- A text of which a type expression has nothing to keep apart. -/
def Unmarked (s : List Char) : Prop := ∀ c ∈ s, c ∉ marks

theorem unmarked_keyword {k : String} (hk : k ∈ keywords) : Unmarked k.toList := by
  have key : ∀ c ∈ marks, c ∈ ['(', '|', ',', '>', ')', '[', '<'] := by simp [marks]
  exact fun c hc hm => notMem_keyword (key c hm) hk hc

theorem unmarked_of_labelParts {s : List Char} (h : ∀ c ∈ s, isLabelPart c = true ∨ c = '\\') :
    Unmarked s := by
  have key : ∀ c ∈ marks, isLabelPart c = false ∧ c ≠ '\\' := by
    simp [marks, isLabelPart, isLabelStart, isLetter, isDigit]
  intro c hc hm
  obtain ⟨hp, hb⟩ := key c hm
  exact (h c hc).elim (fun h => absurd h (by simp [hp])) hb

theorem Grammar.IsClassName.unmarked {n : List Char} (h : IsClassName n) : Unmarked n := by
  apply unmarked_of_labelParts
  rcases h.1 with hp | ⟨p, rfl, hp⟩
  · exact hp.parts
  · exact List.forall_mem_cons.2 ⟨.inr rfl, hp.parts⟩

theorem Grammar.IsCollection.unmarked {n : List Char} {c : Option String}
    (h : IsCollection n c) : Unmarked n := by
  cases h with
  | array => exact unmarked_keyword (by decide)
  | className h => exact h.unmarked

theorem unmarked_pairs (n : Nat) : Unmarked (pairs n) := by
  induction n with
  | zero => simp [Unmarked, pairs]
  | succ n ih => exact List.forall_mem_cons.2 ⟨by decide, List.forall_mem_cons.2 ⟨by decide, ih⟩⟩

theorem unmarked_gap {s : List Char} (h : ∀ c ∈ s, isGap c = true) : Unmarked s := by
  have key : ∀ c ∈ marks, isGap c = false := by simp [marks, isGap]
  intro c hc hm
  exact absurd (h c hc) (by simp [key c hm])

/-! ### Bars -/

theorem hasBar_open {c : Char} (hc : c = '(' ∨ c = '<') (opened : Nat) (r : List Char) :
    hasBar opened (c :: r) = hasBar (opened + 1) r := by
  simp only [hasBar, if_pos hc]

theorem hasBar_close {c : Char} (hc : c = ')' ∨ c = '>') (opened : Nat) (r : List Char) :
    hasBar (opened + 1) (c :: r) = hasBar opened r := by
  have ho : ¬ (c = '(' ∨ c = '<') := by rcases hc with rfl | rfl <;> decide
  simp only [hasBar, if_neg ho, if_pos hc]

theorem hasBar_paren (r : List Char) : hasBar 0 (')' :: r) = false := rfl

theorem hasBar_bar (opened : Nat) (r : List Char) :
    hasBar (opened + 1) ('|' :: r) = hasBar (opened + 1) r := by
  simp [hasBar]

theorem hasBar_comma (opened : Nat) (r : List Char) :
    hasBar opened (',' :: r) = hasBar opened r := by
  simp [hasBar]

theorem hasBar_unmarked {s : List Char} (h : Unmarked s) (opened : Nat) (r : List Char) :
    hasBar opened (s ++ r) = hasBar opened r := by
  induction s with
  | nil => rfl
  | cons c s ih =>
    obtain ⟨hc, hs⟩ := List.forall_mem_cons.1 h
    simp only [marks, List.mem_cons, List.not_mem_nil, or_false, not_or] at hc
    simp [hasBar, hc, ih hs]

/-- A bracketed text is passed over. -/
theorem hasBar_bracketed {o c : Char} (ho : o = '(' ∨ o = '<') (hc : c = ')' ∨ c = '>')
    {s : List Char} (hs : ∀ opened r, hasBar (opened + 1) (s ++ r) = hasBar (opened + 1) r)
    (opened : Nat) (r : List Char) : hasBar opened (o :: (s ++ c :: r)) = hasBar opened r := by
  rw [hasBar_open ho, hs, hasBar_close hc]

namespace Grammar

mutual

/-- No single type has a bar outside brackets. -/
theorem Single.hasBar_append {n : Nat} {s : List Char} {t : TypeExpr} (h : Single n s t) :
    ∀ opened r, hasBar opened (s ++ r) = hasBar opened r := by
  intro opened r
  match h with
  | .keyword hk => exact hasBar_unmarked (unmarked_keyword hk) opened r
  | .className hn => exact hasBar_unmarked hn.unmarked opened r
  | .keywordArray hk l =>
    rw [List.append_assoc, hasBar_unmarked (unmarked_keyword hk),
      hasBar_unmarked (unmarked_pairs l)]
  | .classArray hn l =>
    rw [List.append_assoc, hasBar_unmarked hn.unmarked, hasBar_unmarked (unmarked_pairs l)]
  | .group hm l =>
    rw [List.cons_append, List.append_assoc, List.cons_append,
      hasBar_bracketed (.inl rfl) (.inl rfl) hm.hasBar_append, hasBar_unmarked (unmarked_pairs l)]
  | .generic hg => exact hg.hasBar_append opened r
  | .genericArray hg l =>
    rw [List.append_assoc, hg.hasBar_append, hasBar_unmarked (unmarked_pairs l)]

theorem Generic.hasBar_append {n : Nat} {s : List Char} {c : Option String} {t : TypeExpr}
    (h : Generic n s c t) : ∀ opened r, hasBar opened (s ++ r) = hasBar opened r := by
  intro opened r
  match h with
  | .value hc hm =>
    rw [List.append_assoc, hasBar_unmarked hc.unmarked, List.cons_append, List.append_assoc,
      List.cons_append, hasBar_bracketed (.inr rfl) (.inr rfl) hm.hasBar_append, List.nil_append]
  | @Generic.keyed _ _ _ k gap s _ _ _ _ _ hc hk hgap hm =>
    have inner : ∀ opened r,
        hasBar (opened + 1) ((k ++ ',' :: (gap ++ s)) ++ r) = hasBar (opened + 1) r := by
      intro opened r
      rw [List.append_assoc, hk.hasBar_append, List.cons_append, hasBar_comma, List.append_assoc,
        hasBar_unmarked (unmarked_gap hgap), hm.hasBar_append]
    have hall := hasBar_bracketed (.inr rfl) (.inr rfl) inner opened r
    rw [List.append_assoc, hasBar_unmarked hc.unmarked, ← hall]
    simp

/-- The bars between types are passed over where brackets are open. -/
theorem Members.hasBar_append {n : Nat} {s : List Char} {t : TypeExpr} {ts : List TypeExpr}
    (h : Members n s t ts) : ∀ opened r, hasBar (opened + 1) (s ++ r) = hasBar (opened + 1) r := by
  intro opened r
  match h with
  | .one h => exact h.hasBar_append (opened + 1) r
  | .more h hr =>
    rw [List.append_assoc, h.hasBar_append, List.cons_append, hasBar_bar, hr.hasBar_append]

end

end Grammar

theorem Barred.append_right {s r : List Char} (h : Barred (s ++ r)) : Barred r :=
  fun q hq => h q (hq.trans (List.suffix_append s r))

theorem Barred.tail {c : Char} {r : List Char} (h : Barred (c :: r)) : Barred r :=
  (barred_cons.1 h).2

/-! ### Spaces -/

theorem spaced_cons {c : Char} (hc : c ≠ ',') (r : List Char) :
    spaced (c :: r) = c :: spaced r := by
  rw [spaced, if_neg hc]

theorem spaced_append {s : List Char} (hs : ',' ∉ s) (r : List Char) :
    spaced (s ++ r) = s ++ spaced r := by
  induction s with
  | nil => rfl
  | cons c s ih =>
    obtain ⟨hc, hs⟩ := not_or.1 (mt List.mem_cons.2 hs)
    rw [List.cons_append, spaced_cons (Ne.symm hc), ih hs, List.cons_append]

theorem spaced_unmarked {s : List Char} (hs : Unmarked s) (r : List Char) :
    spaced (s ++ r) = s ++ spaced r :=
  spaced_append (fun hc => hs _ hc (by decide)) r

/-- A comma and what follows it: the gap gives way to one space where something else begins. -/
theorem spaced_comma {gap s : List Char} (hg : ∀ c ∈ gap, isGap c = true)
    (hs : ∀ c ∈ (spaced s).head?, isGap c = false) :
    spaced (',' :: (gap ++ s)) = ',' :: ' ' :: spaced s := by
  rw [spaced, if_pos rfl, spaced_unmarked (unmarked_gap hg), dropWhile_append_stop hg hs]

/-! ### Texts written again -/

namespace Grammar

mutual

theorem Single.spaced_append {n : Nat} {s : List Char} {t : TypeExpr} (h : Single n s t)
    {r : List Char} (hb : Barred (s ++ r)) : spaced (s ++ r) = written t ++ spaced r := by
  match h with
  | .keyword hk => exact spaced_unmarked (unmarked_keyword hk) r
  | .className hn =>
    rw [written, String.toList_ofList]
    exact spaced_unmarked hn.unmarked r
  | .keywordArray hk l =>
    rw [written_array (t := .keyword _) rfl, List.append_assoc,
      spaced_unmarked (unmarked_keyword hk),
      spaced_unmarked (unmarked_pairs l), List.append_assoc, written]
  | .classArray hn l =>
    rw [written_array (t := .className _) rfl, List.append_assoc, spaced_unmarked hn.unmarked,
      spaced_unmarked (unmarked_pairs l), List.append_assoc, written, String.toList_ofList]
  | @Single.group n s t [] hm l =>
    -- a single type leaves the group without a bar
    simp only [List.cons_append, List.append_assoc] at hb
    have hbar := (barred_cons.1 hb).1 rfl
    rw [hm.single.hasBar_append, hasBar_paren] at hbar
    exact absurd hbar (by decide)
  | @Single.group n s t (u :: us) hm l =>
    simp only [List.cons_append, List.append_assoc] at hb ⊢
    rw [spaced_cons (by decide), hm.spaced_append hb.tail, spaced_cons (by decide),
      spaced_unmarked (unmarked_pairs l), written_group]
    simp
  | .generic hg => exact hg.spaced_append hb
  | .genericArray hg l =>
    rw [List.append_assoc] at hb ⊢
    rw [hg.spaced_append hb, spaced_unmarked (unmarked_pairs l),
      written_array (Single.generic hg).isMember, List.append_assoc]

theorem Generic.spaced_append {n : Nat} {s : List Char} {c : Option String} {t : TypeExpr}
    (h : Generic n s c t) {r : List Char} (hb : Barred (s ++ r)) :
    spaced (s ++ r) = written t ++ spaced r := by
  match h with
  | .value hc hm =>
    simp only [List.append_assoc, List.cons_append, List.nil_append] at hb ⊢
    rw [spaced_unmarked hc.unmarked, spaced_cons (by decide),
      hm.spaced_append hb.append_right.tail, spaced_cons (by decide), written, written_join,
      hc.name_eq]
    simp
  | .keyed hc hk hgap hm =>
    simp only [List.append_assoc, List.cons_append, List.nil_append] at hb ⊢
    have hkey := hb.append_right.tail
    have hvalue := hm.spaced_append hkey.append_right.tail.append_right
    obtain ⟨d, q, hstart, hd⟩ := hm.written_starts.append (spaced ('>' :: r))
    rw [spaced_unmarked hc.unmarked, spaced_cons (by decide), hk.spaced_append hkey,
      spaced_comma hgap (by simp [hvalue, hstart, hd]), hvalue, spaced_cons (by decide), written,
      written_join, written_join, hc.name_eq]
    simp

theorem Members.spaced_append {n : Nat} {s : List Char} {t : TypeExpr} {ts : List TypeExpr}
    (h : Members n s t ts) {r : List Char} (hb : Barred (s ++ r)) :
    spaced (s ++ r) = (written t ++ writtenRest ts) ++ spaced r := by
  match h with
  | .one h => simpa [writtenRest] using h.spaced_append hb
  | .more h hr =>
    rw [List.append_assoc, List.cons_append] at hb ⊢
    rw [h.spaced_append hb, spaced_cons (by decide), hr.spaced_append hb.append_right.tail,
      writtenRest]
    simp

end

end Grammar

/-- A type is written as the text that it was read from, but for the spaces and tabs behind
commas, where every group of the text holds a bar of its own. -/
theorem toString_of_parse? {asked : Int} {text : String} {t : TypeExpr}
    (h : parse? asked text = some t) (hb : Barred text.toList) :
    toString t = String.ofList (spaced text.toList) := by
  obtain ⟨n, -, u, us, hm, rfl⟩ := parse?_eq_some_iff.1 h
  have hs := hm.spaced_append (r := []) (by rwa [List.append_nil])
  rw [List.append_nil, spaced, List.append_nil, ← written_join] at hs
  rw [hs]
  rfl

/-- A bar in angle brackets or in an inner group is none of the outer group, which has one of
its own; behind one comma there is nothing, behind the other a tab and spaces. -/
theorem toString_of_parse?_mixed_gaps :
    ∃ t, parse? 4 "((A<x|y,int>|(\\B|b)[][])[]|c)[]|array<k, \t v>" = some t ∧
      Barred "((A<x|y,int>|(\\B|b)[][])[]|c)[]|array<k, \t v>".toList ∧
      toString t =
        String.ofList (spaced "((A<x|y,int>|(\\B|b)[][])[]|c)[]|array<k, \t v>".toList) ∧
      toString t = "((A<x|y, int>|(\\B|b)[][])[]|c)[]|array<k, v>" := by
  have hread : (parse? 4 "((A<x|y,int>|(\\B|b)[][])[]|c)[]|array<k, \t v>").map toString =
      some "((A<x|y, int>|(\\B|b)[][])[]|c)[]|array<k, v>" := by decide +kernel
  have hb : Barred "((A<x|y,int>|(\\B|b)[][])[]|c)[]|array<k, \t v>".toList := by decide +kernel
  obtain ⟨t, ht, htext⟩ := Option.map_eq_some_iff.1 hread
  exact ⟨t, ht, hb, toString_of_parse? ht hb, htext⟩

/-- Parentheses around anything but a union are not written. -/
example : (parse? 1 "(int)[]").map toString = some "int[]" ∧ ¬ Barred "(int)[]".toList := by
  decide +kernel

end DocComment.TypeExpr
