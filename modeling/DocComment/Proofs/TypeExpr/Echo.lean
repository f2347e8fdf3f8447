import DocComment.Proofs.TypeExpr.RoundTrip
import DocComment.TypeExpr.Canonical

/-! Reading the written form of a type that was read. Where no generic of `array` has levels
behind it, the type derives from its written form again, but for arrays of arrays, which
come back as one array with the same written form. Where one has, the word `array` counts
as the base of the levels, and an angle bracket is left that no expression goes on with. -/

namespace DocComment.TypeExpr

open Text Grammar

/-! ### Merged types -/

theorem pairs_add (m n : Nat) : pairs (m + n) = pairs m ++ pairs n := by
  induction m with
  | zero => simp [pairs]
  | succ m ih => simp [Nat.succ_add, pairs, ih]

@[simp] theorem isUnion_addLevels (t : TypeExpr) (l : { n : Nat // 0 < n }) :
    (addLevels t l).isUnion = false := by
  cases t <;> rfl

@[simp] theorem isBareGeneric_addLevels (t : TypeExpr) (l : { n : Nat // 0 < n }) :
    isBareGeneric (addLevels t l) = false := by
  cases t <;> rfl

theorem written_addLevels (t : TypeExpr) (l : { n : Nat // 0 < n }) :
    written (addLevels t l) = written (.array t l) := by
  cases t with
  | array t m => simp [addLevels, written, isUnion, pairs_add]
  | _ => rfl

@[simp] theorem isUnion_merged (t : TypeExpr) : (merged t).isUnion = t.isUnion := by
  cases t with
  | array t l => exact isUnion_addLevels _ _
  | _ => rfl

@[simp] theorem isBareGeneric_merged (t : TypeExpr) :
    isBareGeneric (merged t) = isBareGeneric t := by
  cases t with
  | array t l => exact isBareGeneric_addLevels _ _
  | generic c t => cases c <;> rfl
  | keyed c k t => cases c <;> rfl
  | _ => rfl

mutual

theorem written_merged (t : TypeExpr) : written (merged t) = written t := by
  match t with
  | .keyword _ => rfl
  | .className _ => rfl
  | .array t l => rw [merged, written_addLevels, written, written, isUnion_merged, written_merged t]
  | .generic c t => rw [merged, written, written, written_merged t]
  | .keyed c k t => rw [merged, written, written, written_merged k, written_merged t]
  | .union t u us =>
    rw [merged, written, written, written_merged t, written_merged u, writtenRest_mergedAll us]

theorem writtenRest_mergedAll (ts : List TypeExpr) :
    writtenRest (mergedAll ts) = writtenRest ts := by
  match ts with
  | [] => rfl
  | t :: ts => rw [mergedAll, writtenRest, writtenRest, written_merged t, writtenRest_mergedAll ts]

end

theorem merged_join (t : TypeExpr) (ts : List TypeExpr) :
    merged (join t ts) = join (merged t) (mergedAll ts) := by
  cases ts <;> simp [join, merged, mergedAll]

theorem readable_join (t : TypeExpr) (ts : List TypeExpr) :
    readable (join t ts) = (readable t && readableAll ts) := by
  cases ts <;> simp [join, readable, readableAll]

theorem written_array {t : TypeExpr} (h : IsMember t) (l : { n : Nat // 0 < n }) :
    written (.array t l) = written t ++ pairs l := by
  have hu : t.isUnion = false := h
  simp [written, hu]

theorem written_group (t u : TypeExpr) (us : List TypeExpr) (l : { n : Nat // 0 < n }) :
    written (.array (join t (u :: us)) l) =
      '(' :: ((written t ++ writtenRest (u :: us)) ++ ')' :: pairs l) := by
  rw [← written_join]
  simp [join, written, isUnion]

/-! ### Types that derive again -/

namespace Grammar

theorem Members.single {n : Nat} {s : List Char} {t : TypeExpr} (h : Members n s t []) :
    Single n s t := by
  cases h with
  | one h => exact h

/-- Levels may stand behind every single type that is no generic of `array`. -/
theorem Single.addLevels {n : Nat} {s : List Char} {t : TypeExpr} (h : Single n s t)
    (hb : isBareGeneric t = false) (l : { n : Nat // 0 < n }) :
    Single n (s ++ pairs l) (addLevels t l) := by
  cases h with
  | keyword hk => exact .keywordArray hk l
  | className hn => exact .classArray hn l
  | keywordArray hk m =>
    rw [List.append_assoc, ← pairs_add]
    exact .keywordArray hk ⟨m + l, _⟩
  | classArray hn m =>
    rw [List.append_assoc, ← pairs_add]
    exact .classArray hn ⟨m + l, _⟩
  | @group n s t ts hm m =>
    rw [List.cons_append, List.append_assoc, List.cons_append, ← pairs_add]
    exact .group hm ⟨m + l, _⟩
  | @generic _ _ c _ hg =>
    cases c with
    | none => cases hg <;> exact absurd hb (by simp [isBareGeneric])
    | some c =>
      have hs := Single.genericArray hg l
      cases hg <;> exact hs
  | genericArray hg m =>
    rw [List.append_assoc, ← pairs_add]
    exact .genericArray hg ⟨m + l, _⟩

mutual

/-- A readable type that was read derives, merged, from its written form. The form has no
parentheses that the text did not have. -/
theorem Single.merged {n : Nat} {s : List Char} {t : TypeExpr} (h : Single n s t)
    (hr : readable t = true) : ∃ m ≤ n, Single m (written t) (merged t) := by
  match h with
  | .keyword hk => exact ⟨0, Nat.le_refl _, .keyword hk⟩
  | @Single.className m hn =>
    refine ⟨0, Nat.le_refl _, ?_⟩
    rw [written, String.toList_ofList]
    exact .className hn
  | .keywordArray hk l => exact ⟨0, Nat.le_refl _, .keywordArray hk l⟩
  | @Single.classArray m hn l =>
    refine ⟨0, Nat.le_refl _, ?_⟩
    have hmem : IsMember (.className (String.ofList m)) := rfl
    rw [written_array hmem, written, String.toList_ofList]
    exact .classArray hn l
  | @Single.group n s t [] hm l =>
    -- the parentheses are not written, and the levels of the base get more behind them
    have hmem : IsMember t := hm.isMember t (by simp)
    simp only [join, readable, Bool.and_eq_true, Bool.not_eq_true'] at hr
    obtain ⟨m, hle, hs⟩ := hm.merged (by simp [hr.2, readableAll])
    rw [writtenRest, List.append_nil] at hs
    refine ⟨m, by omega, ?_⟩
    rw [join, written_array hmem, TypeExpr.merged]
    exact hs.single.addLevels (by simp [hr.1]) l
  | @Single.group n s t (u :: us) hm l =>
    simp only [readable, readable_join, Bool.and_eq_true] at hr
    obtain ⟨m, hle, hs⟩ := hm.merged (by simp [hr.2])
    refine ⟨m + 1, by omega, ?_⟩
    have hg := Single.group hs l
    rwa [← written_group, ← merged_join] at hg
  | .generic hg =>
    obtain ⟨m, hle, hs⟩ := hg.merged hr
    exact ⟨m, hle, .generic hs⟩
  | @Single.genericArray n s c t hg l =>
    simp only [readable, Bool.and_eq_true] at hr
    obtain ⟨m, hle, hs⟩ := hg.merged hr.2
    refine ⟨m, hle, ?_⟩
    have ha := Single.genericArray hs l
    rw [written_array (Single.generic hg).isMember]
    cases hg <;> exact ha

theorem Generic.merged {n : Nat} {s : List Char} {c : Option String} {t : TypeExpr}
    (h : Generic n s c t) (hr : readable t = true) :
    ∃ m ≤ n, Generic m (written t) c (merged t) := by
  match h with
  | @Generic.value n name s c t ts hc hm =>
    rw [readable, readable_join] at hr
    obtain ⟨m, hle, hs⟩ := hm.merged hr
    refine ⟨m + 1, by omega, ?_⟩
    rw [written, written_join, TypeExpr.merged, merged_join, hc.name_eq]
    exact .value hc hs
  | @Generic.keyed n m name k gap s c u t us ts hc hk hgap hm =>
    rw [readable, readable_join, readable_join, Bool.and_eq_true] at hr
    obtain ⟨n', hle, hkey⟩ := hk.merged hr.1
    obtain ⟨m', hle', hval⟩ := hm.merged hr.2
    have hspace : ∀ d ∈ [' '], isGap d = true := by simp [isGap]
    refine ⟨max n' m' + 1, by omega, ?_⟩
    rw [written, written_join, written_join, TypeExpr.merged, merged_join, merged_join, hc.name_eq]
    exact .keyed hc hkey hspace hval

theorem Members.merged {n : Nat} {s : List Char} {t : TypeExpr} {ts : List TypeExpr}
    (h : Members n s t ts) (hr : (readable t && readableAll ts) = true) :
    ∃ m ≤ n, Members m (written t ++ writtenRest ts) (merged t) (mergedAll ts) := by
  match h with
  | .one h =>
    simp only [readableAll, Bool.and_true] at hr
    obtain ⟨m, hle, hs⟩ := h.merged hr
    refine ⟨m, hle, ?_⟩
    rw [writtenRest, List.append_nil]
    exact .one hs
  | @Members.more n m s r t u ts h hm =>
    rw [Bool.and_eq_true] at hr
    obtain ⟨n', hle, hs⟩ := h.merged hr.1
    obtain ⟨m', hle', hms⟩ := hm.merged hr.2
    exact ⟨max n' m', by omega, .more hs hms⟩

end

end Grammar

/-! ### Types that are not read again -/

/-- An answer of the rule for types after which no expression goes on: there is none, or it
leaves a square or an angle bracket. -/
def Stuck (answer : Option Parsed) : Prop :=
  ∀ p, answer = some p → p.2.head? = some '[' ∨ p.2.head? = some '<'

theorem stuck_none : Stuck none := by simp [Stuck]

theorem stuck_some {t : TypeExpr} {c : Char} (hc : c = '[' ∨ c = '<') (r : List Char) :
    Stuck (some (t, c :: r)) := by
  rintro p ⟨⟩
  simpa using hc

namespace Rule

variable {nested : Stop → Rule Id}

/-- In front of an angle bracket no word is the base of levels. -/
theorem run_leveled_of_generic_eq_none {name : List Char} {c : Option String}
    (hc : IsCollection name c) {r : List Char}
    (hg : (generic .direct nested (name ++ '<' :: r)).run = none) :
    (leveled .direct nested (name ++ '<' :: r)).run = none := by
  cases hc with
  | array => exact run_leveled_array r
  | className hn =>
    have hb : ('<' :: r).head? ≠ some '[' := by simp
    have he : EndsWord ('<' :: r) := .cons (by simp) r
    simp [run_leveled, run_keyword, keyword?_className hn he, hg, run_className,
      className?_className hn he, run_withLevels_eq_none _ hb]

/-- Where a generic is not read, its collection is, and the angle bracket is left. -/
theorem stuck_of_generic_eq_none {name : List Char} {c : Option String}
    (hc : IsCollection name c) {r : List Char}
    (hg : (generic .direct nested (name ++ '<' :: r)).run = none) :
    Stuck (type .direct nested (name ++ '<' :: r)).run := by
  have hl := run_leveled_of_generic_eq_none hc hg
  cases hc with
  | array =>
    rw [run_type, hl, hg, run_group_eq_none (head?_keyword (by decide) _), run_keyword,
      keyword?_append (by decide)]
    exact stuck_some (by simp) r
  | className hn =>
    have he : EndsWord ('<' :: r) := .cons (by simp) r
    rw [run_type, hl, hg, run_group_eq_none (head?_className hn _), run_keyword,
      keyword?_className hn he, run_className, className?_className hn he]
    exact stuck_some (by simp) r

/-- Levels behind a generic of `array` are left. -/
theorem stuck_of_bareGeneric {allowed : Nat} (hn : NestedComplete allowed nested) {n : Nat}
    {w : List Char} {t : TypeExpr} (hle : n ≤ allowed) (h : Generic n w none t)
    (l : { n : Nat // 0 < n }) (r : List Char) :
    Stuck (type .direct nested (w ++ (pairs l ++ r))).run := by
  have hg := generic_complete hn hle h (pairs l ++ r)
  have hl : (leveled .direct nested (w ++ (pairs l ++ r))).run = none := by
    obtain ⟨name, q, hc, rfl⟩ := h.exists_collection
    cases hc
    rw [List.append_assoc]
    exact run_leveled_array _
  rw [run_type, hl, hg, run_group_eq_none (head?_generic h _)]
  obtain ⟨l, hpos⟩ := l
  cases l with
  | zero => exact absurd hpos (Nat.lt_irrefl 0)
  | succ l => exact stuck_some (by simp) _

theorem run_type_paren {r : List Char} (hg : (group .direct nested ('(' :: r)).run = none) :
    (type .direct nested ('(' :: r)).run = none := by
  simp [run_type, run_leveled, run_generic_eq_none (collection?_paren r), hg, run_keyword,
    keyword?_paren, run_className, className?_paren]

theorem run_members_of_stuck {stop : Stop} (hs : IsStop stop) {s : List Char}
    (h : Stuck (type .direct nested s).run) (fuel : Nat) :
    (members .direct nested stop fuel s).run = none := by
  cases fuel with
  | zero => rfl
  | succ fuel =>
    rw [members, run_bind]
    cases ht : (type .direct nested s).run with
    | none => rfl
    | some p =>
      obtain ⟨t, r⟩ := p
      have hr := h _ ht
      cases r with
      | nil => simp at hr
      | cons c q =>
        have hstop : ¬ stop c = true := by
          intro hc
          rcases hs c hc with rfl | rfl | rfl <;> simp at hr
        have hbar : c ≠ '|' := by
          rintro rfl
          simp at hr
        simp only [Option.bind_some, if_neg hstop, if_neg hbar]
        rfl

theorem run_expression_eq_none {stop : Stop} {s : List Char}
    (h : ∀ fuel, (members .direct nested stop fuel s).run = none) :
    (expression .direct nested stop s).run = none := by
  rw [expression, run_bind, h]
  rfl

end Rule

theorem run_nested_eq_none {allowed : Nat} {stop : Stop} {s : List Char}
    (h : ∀ fuel, (Rule.members .direct (nested .direct allowed) stop fuel s).run = none) :
    (nested .direct (allowed + 1) stop s).run = none :=
  Rule.run_expression_eq_none h

namespace Grammar

theorem Single.bareGeneric {n : Nat} {s : List Char} {t : TypeExpr} (h : Single n s t)
    (hb : isBareGeneric t = true) : Generic n s none t := by
  cases h with
  | @generic _ _ c _ hg =>
    cases c with
    | none => exact hg
    | some c => cases hg <;> exact absurd hb (by simp [isBareGeneric])
  | _ => exact absurd hb (by simp [isBareGeneric])

theorem Generic.not_bare {n : Nat} {s : List Char} {c : String} {t : TypeExpr}
    (h : Generic n s (some c) t) : isBareGeneric t = false := by
  cases h <;> rfl

/-- The written form of a generic begins with its collection and an angle bracket. -/
theorem Generic.written_eq {n : Nat} {s : List Char} {c : Option String} {t : TypeExpr}
    (h : Generic n s c t) : ∃ name q, IsCollection name c ∧ written t = name ++ '<' :: q := by
  cases h with
  | value hc _ => exact ⟨_, _, hc, by rw [written, hc.name_eq]⟩
  | keyed hc _ _ _ => exact ⟨_, _, hc, by rw [written, hc.name_eq]⟩

mutual

/-- The written form of a type that is not readable is not read as a type that anything may
follow. The induction is on how the type was read; up to the first part that is not
readable, the rules read the parts merged. -/
theorem Single.stuck {n : Nat} {s : List Char} {t : TypeExpr} (h : Single n s t) (allowed : Nat)
    (hle : n ≤ allowed) (hr : readable t = false) (r : List Char) :
    Stuck (Rule.type .direct (nested .direct allowed) (written t ++ r)).run := by
  match h with
  | .keyword _ => exact absurd hr (by simp [readable])
  | .className _ => exact absurd hr (by simp [readable])
  | .keywordArray _ _ => exact absurd hr (by simp [readable, isBareGeneric])
  | .classArray _ _ => exact absurd hr (by simp [readable, isBareGeneric])
  | @Single.group n s t [] (.one h) l =>
    rw [join, written_array h.isMember, List.append_assoc]
    cases ht : readable t with
    | false => exact h.stuck allowed (by omega) ht _
    | true =>
      have hb : isBareGeneric t = true := by simpa [join, readable, ht] using hr
      obtain ⟨m, hm, hs⟩ := h.merged ht
      have hg := hs.bareGeneric (by simp [hb])
      exact Rule.stuck_of_bareGeneric (nested_complete allowed) (by omega) hg l r
  | @Single.group n s t (u :: us) hm l =>
    obtain ⟨allowed, rfl⟩ := Nat.exists_eq_add_one_of_ne_zero (n := allowed) (by omega)
    have hall : (readable t && readableAll (u :: us)) = false := by
      simpa [readable, isBareGeneric, join, readableAll] using hr
    have hn := run_nested_eq_none fun fuel =>
      hm.stuck allowed (by omega) hall isStop_paren (')' :: (pairs l ++ r)) fuel
    have hg : (Rule.group .direct (nested .direct (allowed + 1))
        (written (.array (join t (u :: us)) l) ++ r)).run = none := by
      rw [written_group, List.cons_append, List.append_assoc, List.cons_append, Rule.group]
      simp only [Policy.direct, run_bind] at hn ⊢
      rw [hn]
      rfl
    rw [written_group] at hg ⊢
    exact Rule.run_type_paren hg ▸ stuck_none
  | .generic hg =>
    obtain ⟨name, q, hc, hw⟩ := hg.written_eq
    have hnone := hg.stuck allowed hle hr r
    rw [hw, List.append_assoc] at hnone ⊢
    exact Rule.stuck_of_generic_eq_none hc hnone
  | @Single.genericArray n s c t hg l =>
    obtain ⟨name, q, hc, hw⟩ := hg.written_eq
    have ht : readable t = false := by simpa [readable, hg.not_bare] using hr
    have hnone := hg.stuck allowed hle ht (pairs l ++ r)
    rw [written_array (Single.generic hg).isMember, List.append_assoc]
    rw [hw, List.append_assoc] at hnone ⊢
    exact Rule.stuck_of_generic_eq_none hc hnone

theorem Generic.stuck {n : Nat} {s : List Char} {c : Option String} {t : TypeExpr}
    (h : Generic n s c t) (allowed : Nat) (hle : n ≤ allowed) (hr : readable t = false)
    (r : List Char) :
    (Rule.generic .direct (nested .direct allowed) (written t ++ r)).run = none := by
  match h with
  | @Generic.value n name s c t ts hc hm =>
    obtain ⟨allowed, rfl⟩ := Nat.exists_eq_add_one_of_ne_zero (n := allowed) (by omega)
    rw [readable, readable_join] at hr
    have hn := run_nested_eq_none fun fuel =>
      hm.stuck allowed (by omega) hr isStop_comma ('>' :: r) fuel
    have hw : written (.generic c (join t ts)) ++ r =
        name ++ '<' :: (written t ++ writtenRest ts ++ '>' :: r) := by
      simp [written, written_join, hc.name_eq]
    rw [hw, Rule.generic, Rule.collection?_append hc]
    simp only [Policy.direct, run_bind] at hn ⊢
    rw [hn]
    rfl
  | @Generic.keyed n m name k gap s c u t us ts hc hk hgap hm =>
    obtain ⟨allowed, rfl⟩ := Nat.exists_eq_add_one_of_ne_zero (n := allowed) (by omega)
    rw [readable, readable_join, readable_join] at hr
    have hw : written (.keyed c (join u us) (join t ts)) ++ r =
        name ++ '<' :: (written u ++ writtenRest us ++
          ',' :: ' ' :: (written t ++ writtenRest ts ++ '>' :: r)) := by
      simp [written, written_join, hc.name_eq]
    rw [hw, Rule.generic, Rule.collection?_append hc]
    cases hu : readable u && readableAll us with
    | false =>
      have hn := run_nested_eq_none fun fuel => hk.stuck allowed (by omega) hu isStop_comma
        (',' :: ' ' :: (written t ++ writtenRest ts ++ '>' :: r)) fuel
      simp only [Policy.direct, run_bind] at hn ⊢
      rw [hn]
      rfl
    | true =>
      rw [hu, Bool.true_and] at hr
      obtain ⟨n', hle', hkey⟩ := hk.merged hu
      have hn := nested_complete (allowed + 1) _ n' _ _
        (',' :: ' ' :: (written t ++ writtenRest ts ++ '>' :: r)) isStop_comma (by omega)
        ⟨_, _, hkey, rfl⟩ (by simp)
      have hn' := run_nested_eq_none fun fuel =>
        hm.stuck allowed (by omega) hr isStop_angle ('>' :: r) fuel
      obtain ⟨d, q, hq, hd⟩ := hm.written_starts
      have hdrop : (' ' :: (written t ++ writtenRest ts ++ '>' :: r)).dropWhile isGap =
          written t ++ writtenRest ts ++ '>' :: r := by
        have hspace : isGap ' ' = true := by decide
        rw [List.dropWhile_cons_of_pos hspace, hq, List.cons_append,
          List.dropWhile_cons_of_neg (by simp [hd])]
      simp only [Policy.direct, run_bind] at hn hn' ⊢
      rw [hn]
      simp only [Option.bind_some, run_bind, hdrop, hn']
      rfl

theorem Members.stuck {n : Nat} {s : List Char} {t : TypeExpr} {ts : List TypeExpr}
    (h : Members n s t ts) (allowed : Nat) (hle : n ≤ allowed)
    (hr : (readable t && readableAll ts) = false) {stop : Stop} (hs : IsStop stop)
    (r : List Char) (fuel : Nat) :
    (Rule.members .direct (nested .direct allowed) stop fuel
      (written t ++ writtenRest ts ++ r)).run = none := by
  match h with
  | .one h =>
    have ht : readable t = false := by simpa [readableAll] using hr
    rw [List.append_assoc]
    exact Rule.run_members_of_stuck hs (h.stuck allowed hle ht _) fuel
  | @Members.more n m s q t u ts h hm =>
    cases ht : readable t with
    | false =>
      rw [List.append_assoc]
      exact Rule.run_members_of_stuck hs (h.stuck allowed (by omega) ht _) fuel
    | true =>
      rw [ht, Bool.true_and] at hr
      obtain ⟨n', hle', hsingle⟩ := h.merged ht
      cases fuel with
      | zero => rfl
      | succ fuel =>
        have hbar : ¬ stop '|' = true := fun h => absurd (hs _ h) (by decide)
        have hfirst := Rule.type_complete (nested_complete allowed) (by omega) hsingle
          (r := '|' :: (written u ++ writtenRest ts ++ r)) (by simp [EndsType])
        have hrest := hm.stuck allowed (by omega) hr hs r fuel
        rw [writtenRest, List.append_assoc, List.cons_append, Rule.members, run_bind, hfirst]
        simp only [Option.bind_some, if_neg hbar, if_true, run_bind, hrest]
        rfl

end

end Grammar

/-! ### Reading the written form of what was read -/

theorem toString_merged (t : TypeExpr) : toString (merged t) = toString t := by
  show text (merged t) = text t
  rw [text, text, written_merged]

/-- A type that was read is read again from its written form, merged, where no generic of
`array` has levels behind it. Where one has, the written form is no type expression. -/
theorem parse?_toString_of_parse? {asked : Int} {text : String} {t : TypeExpr}
    (h : parse? asked text = some t) :
    parse? asked (toString t) = (if readable t then some (merged t) else none) ∧
      toString (merged t) = toString t := by
  refine ⟨?_, toString_merged t⟩
  obtain ⟨n, hle, u, us, hm, rfl⟩ := parse?_eq_some_iff.1 h
  have hw : (toString (join u us)).toList = written u ++ writtenRest us :=
    (toList_text _).trans (written_join u us)
  split
  next hr =>
    rw [readable_join] at hr
    obtain ⟨m, hmn, hs⟩ := hm.merged hr
    rw [parse?_eq_some_iff, hw]
    exact ⟨m, by omega, _, _, hs, merged_join u us⟩
  next hr =>
    rw [Bool.not_eq_true, readable_join] at hr
    have hs : IsStop fun _ => false := by simp [IsStop]
    have hnone := Rule.run_expression_eq_none fun fuel => hm.stuck _ hle hr hs [] fuel
    rw [parse?_eq_derive?, derive?, hw, whole]
    rw [List.append_nil] at hnone
    rw [hnone]
    rfl

/-- Levels on levels, parentheses around a single type and a tab behind a comma are not
written again. -/
theorem parse?_toString_levels_on_levels :
    ∃ t, parse? 3 "((int[])[]|\\A<(bool)[], \tarray<$this>>[])[]" = some t ∧
      toString t = "(int[][]|\\A<bool[], array<$this>>[])[]" ∧
      parse? 3 (toString t) = some (merged t) ∧ toString (merged t) = toString t := by
  have htext : (parse? 3 "((int[])[]|\\A<(bool)[], \tarray<$this>>[])[]").map toString =
      some "(int[][]|\\A<bool[], array<$this>>[])[]" := by decide +kernel
  have hreadable : (parse? 3 "((int[])[]|\\A<(bool)[], \tarray<$this>>[])[]").map readable =
      some true := by decide +kernel
  obtain ⟨t, ht, hs⟩ := Option.map_eq_some_iff.1 htext
  rw [ht, Option.map_some] at hreadable
  have hecho := parse?_toString_of_parse? ht
  rw [if_pos (Option.some.inj hreadable)] at hecho
  exact ⟨t, ht, hs, hecho⟩

/-- The parentheses around a generic of `array` are not written, although it cannot be read
without them. -/
theorem parse?_toString_generic_in_parentheses :
    ∃ t, parse? 2 "(array<int>)[]" = some t ∧ toString t = "array<int>[]" ∧
      ¬ ∃ u, parse? 2 (toString t) = some u ∧ toString u = toString t := by
  have hread : (parse? 2 "(array<int>)[]").map toString = some "array<int>[]" := by
    decide +kernel
  have hnone : parse? 2 "array<int>[]" = none := by
    rw [← Option.isNone_iff_eq_none]
    decide +kernel
  obtain ⟨t, ht, htext⟩ := Option.map_eq_some_iff.1 hread
  refine ⟨t, ht, htext, ?_⟩
  rw [htext, hnone]
  simp

end DocComment.TypeExpr
