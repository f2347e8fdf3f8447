import DocComment.Proofs.TypeExpr.Acceptance
import DocComment.TypeExpr.Canonical

/-! Reading the written form of a type gives the type back exactly when it is canonical
and not nested too deeply. A canonical type derives from its written form along its
structure. For the converse, writing never adds to the characters that are neither
spaces nor tabs (`weight`), and it drops the parentheses around a base that is no union;
a type that derives from its own written form has no such base, and its parts derive
from theirs. -/

namespace DocComment.TypeExpr

open Text Grammar

theorem written_join (t : TypeExpr) (ts : List TypeExpr) :
    written (join t ts) = written t ++ writtenRest ts := by
  cases ts with
  | nil => simp [join, writtenRest]
  | cons u us => simp [join, written, writtenRest]

theorem Grammar.IsCollection.name_eq {name : List Char} {c : Option String}
    (h : IsCollection name c) : collectionName c = name := by
  cases h with
  | array => rfl
  | className h => exact String.toList_ofList

/-- A single type is no union. -/
theorem Grammar.Single.isMember {n : Nat} {s : List Char} {t : TypeExpr} (h : Single n s t) :
    IsMember t := by
  cases h with
  | generic hg => cases hg <;> rfl
  | _ => rfl

theorem Grammar.Members.isMember {n : Nat} {s : List Char} {t : TypeExpr} {ts : List TypeExpr}
    (h : Members n s t ts) : ∀ v ∈ t :: ts, IsMember v := by
  induction ts generalizing n s t with
  | nil =>
    cases h with
    | one h => simpa using h.isMember
  | cons u us ih =>
    cases h with
    | more h hr =>
      intro v hv
      rcases List.mem_cons.1 hv with rfl | hv
      · exact h.isMember
      · exact ih hr v hv

/-! ### Weights -/

/-- The number of characters that are neither spaces nor tabs. -/
def weight (s : List Char) : Nat := s.countP fun c => !isGap c

theorem weight_append (s r : List Char) : weight (s ++ r) = weight s + weight r :=
  List.countP_append

theorem weight_cons (c : Char) (s : List Char) :
    weight (c :: s) = weight s + if isGap c then 0 else 1 := by
  cases h : isGap c <;> simp [weight, h]

theorem weight_gap {s : List Char} (h : ∀ d ∈ s, isGap d = true) : weight s = 0 := by
  simp only [weight, List.countP_eq_zero]
  intro d hd
  simp [h d hd]

mutual

/-- Writing a type takes no more characters than the text it was read from has, spaces
and tabs apart. -/
theorem Grammar.Single.weight_written_le {n : Nat} {s : List Char} {t : TypeExpr}
    (h : Single n s t) : weight (written t) ≤ weight s := by
  match h with
  | .keyword _ => exact Nat.le_refl _
  | .className _ => simp [written]
  | .keywordArray _ _ => exact Nat.le_refl _
  | .classArray _ _ => simp [written, isUnion]
  | @Single.group n s t ts hm l =>
    have hle := hm.weight_written_le
    rw [← written_join] at hle
    rw [written]
    split
    · simp [weight_append, weight_cons, isGap]
      omega
    · simp [weight_append, weight_cons, isGap]
      omega
  | .generic hg => exact hg.weight_written_le
  | @Single.genericArray n s c t hg l =>
    have hle := hg.weight_written_le
    have hu : t.isUnion = false := (Single.generic hg).isMember
    simp only [written, hu, weight_append]
    simp only [Bool.false_eq_true, if_false]
    omega

theorem Grammar.Generic.weight_written_le {n : Nat} {s : List Char} {c : Option String}
    {t : TypeExpr} (h : Generic n s c t) : weight (written t) ≤ weight s := by
  match h with
  | @Generic.value n name s c t ts hc hm =>
    have hle := hm.weight_written_le
    rw [← written_join] at hle
    simp [written, hc.name_eq, weight_append, weight_cons, isGap]
    omega
  | @Generic.keyed n m name k gap s c u t us ts hc hk hgap hm =>
    have hle := hk.weight_written_le
    have hle' := hm.weight_written_le
    rw [← written_join] at hle hle'
    simp [written, hc.name_eq, weight_append, weight_cons, weight_gap hgap, isGap]
    omega

theorem Grammar.Members.weight_written_le {n : Nat} {s : List Char} {t : TypeExpr}
    {ts : List TypeExpr} (h : Members n s t ts) :
    weight (written t ++ writtenRest ts) ≤ weight s := by
  match h with
  | .one h =>
    have hle := h.weight_written_le
    simpa [writtenRest] using hle
  | @Members.more n m s r t u ts h hr =>
    have hle := h.weight_written_le
    have hle' := hr.weight_written_le
    simp [writtenRest, weight_append, weight_cons, isGap] at hle' ⊢
    omega

end

/-- Two ways to cut a text at the same separator agree when one side of the cut weighs no
more in the second on both sides. -/
theorem cut_eq_of_weight_le {c : Char} (hc : isGap c = false) {a b x y : List Char}
    (h : a ++ c :: x = b ++ c :: y) (ha : weight b ≤ weight a) (hx : weight y ≤ weight x) :
    a = b ∧ x = y := by
  have hw := congrArg weight h
  simp only [weight_append, weight_cons, hc] at hw
  rcases List.append_eq_append_iff.1 h with ⟨m, rfl, hm⟩ | ⟨m, rfl, hm⟩
  · cases m with
    | nil => simpa using hm
    | cons d m =>
      obtain ⟨rfl, -⟩ := List.cons.inj hm
      simp only [weight_append, weight_cons, hc, Bool.false_eq_true, if_false] at ha
      omega
  · cases m with
    | nil => simpa using hm.symm
    | cons d m =>
      obtain ⟨rfl, -⟩ := List.cons.inj hm
      simp only [weight_append, weight_cons, hc, Bool.false_eq_true, if_false] at hw
      omega

/-! ### The written form of what derives -/

theorem Grammar.Generic.isBase {n : Nat} {s : List Char} {c : String} {t : TypeExpr}
    (h : Generic n s (some c) t) : IsBase t := by
  cases h with
  | value _ _ => trivial
  | keyed _ _ _ _ => trivial

theorem Grammar.IsCollection.isNamed {name : List Char} {c : Option String}
    (h : IsCollection name c) : IsNamed c := by
  cases h with
  | array => trivial
  | className h => simpa [IsNamed] using h

mutual

theorem Grammar.Single.written_starts {n : Nat} {s : List Char} {t : TypeExpr}
    (h : Single n s t) : Starts (written t) := by
  match h with
  | .keyword hk => exact starts_keyword hk
  | .className hn => simpa [written] using hn.starts
  | .keywordArray hk l => simpa [written, isUnion] using (starts_keyword hk).append _
  | .classArray hn l => simpa [written, isUnion] using hn.starts.append _
  | @Single.group n s t ts hm l =>
    have hs := hm.written_starts
    rw [← written_join] at hs
    rw [written]
    split
    · exact ⟨_, _, rfl, by decide⟩
    · exact hs.append _
  | .generic hg => exact hg.written_starts
  | @Single.genericArray n s c t hg l =>
    have hu : t.isUnion = false := (Single.generic hg).isMember
    simpa [written, hu] using hg.written_starts.append _

theorem Grammar.Generic.written_starts {n : Nat} {s : List Char} {c : Option String}
    {t : TypeExpr} (h : Generic n s c t) : Starts (written t) := by
  match h with
  | .value hc _ => exact (hc.name_eq ▸ hc.starts).append _
  | .keyed hc _ _ _ => exact (hc.name_eq ▸ hc.starts).append _

theorem Grammar.Members.written_starts {n : Nat} {s : List Char} {t : TypeExpr}
    {ts : List TypeExpr} (h : Members n s t ts) : Starts (written t ++ writtenRest ts) := by
  match h with
  | .one h => exact h.written_starts.append _
  | .more h _ => exact h.written_starts.append _

end

theorem canonical_join {t : TypeExpr} {ts : List TypeExpr} (hc : ∀ v ∈ t :: ts, Canonical v)
    (hm : ∀ v ∈ t :: ts, IsMember v) : Canonical (join t ts) := by
  cases ts with
  | nil => exact hc t (by simp)
  | cons u us =>
    exact .union (hc t (by simp)) (hc u (by simp)) (fun v hv => hc v (by simp [hv])) hm

/-- A gap and a text behind it are told apart by the first character of the text. -/
theorem gap_eq_of_starts {gap s r : List Char} (hgap : ∀ d ∈ gap, isGap d = true)
    (hs : Starts s) (hr : Starts r) (h : gap ++ s = ' ' :: r) : s = r := by
  obtain ⟨c, q, rfl, hc⟩ := hs
  obtain ⟨d, x, rfl, hd⟩ := hr
  have hspace : isGap ' ' = true := by decide
  have hl := congrArg (List.dropWhile isGap) h
  rw [List.dropWhile_append_of_pos hgap] at hl
  simpa [hc, hd, hspace] using hl

mutual

/-- What derives from its own written form is canonical. -/
theorem Grammar.Single.canonical {n : Nat} {s : List Char} {t : TypeExpr} (h : Single n s t)
    (hs : s = written t) : Canonical t := by
  match h with
  | .keyword hk => exact .keyword hk
  | .className hn => exact .className (by simpa using hn)
  | .keywordArray hk l => exact .array (.keyword hk) trivial
  | .classArray hn l => exact .array (.className (by simpa using hn)) trivial
  | @Single.group n s t [] hm l =>
    -- the parentheses are not written, so the written form is too light
    have hu : t.isUnion = false := hm.isMember t (by simp)
    have hle := hm.weight_written_le
    have hw := congrArg weight hs
    simp [join, written, hu, weight_append, weight_cons, isGap, writtenRest] at hle hw
    omega
  | @Single.group n s t (u :: us) hm l =>
    have hw : written (.array (join t (u :: us)) l) =
        '(' :: ((written t ++ writtenRest (u :: us)) ++ ')' :: pairs l) := by
      rw [← written_join]
      simp [join, written, isUnion]
    rw [hw, List.cons.injEq] at hs
    have hc := hm.canonical (List.append_cancel_right hs.2)
    exact .array (canonical_join hc hm.isMember) trivial
  | .generic hg => exact hg.canonical hs
  | @Single.genericArray n s c t hg l =>
    have hu : t.isUnion = false := (Single.generic hg).isMember
    simp only [written, hu, Bool.false_eq_true, if_false] at hs
    exact .array (hg.canonical (List.append_cancel_right hs)) hg.isBase

theorem Grammar.Generic.canonical {n : Nat} {s : List Char} {c : Option String} {t : TypeExpr}
    (h : Generic n s c t) (hs : s = written t) : Canonical t := by
  match h with
  | @Generic.value n name s c t ts hc hm =>
    rw [written, hc.name_eq, written_join] at hs
    have hs := (List.cons.inj (List.append_cancel_left hs)).2
    have hcan := hm.canonical (List.append_cancel_right hs)
    exact .generic hc.isNamed (canonical_join hcan hm.isMember)
  | @Generic.keyed n m name k gap s c u t us ts hc hk hgap hm =>
    rw [written, hc.name_eq, written_join, written_join] at hs
    have hs := (List.cons.inj (List.append_cancel_left hs)).2
    have hle := hm.weight_written_le
    obtain ⟨hkey, hrest⟩ := cut_eq_of_weight_le (by decide) hs hk.weight_written_le (by
      simp [weight_append, weight_cons, weight_gap hgap, isGap] at hle ⊢
      omega)
    rw [← List.append_assoc, ← List.cons_append] at hrest
    have hval := gap_eq_of_starts hgap hm.starts hm.written_starts
      (List.append_cancel_right hrest)
    exact .keyed hc.isNamed (canonical_join (hk.canonical hkey) hk.isMember)
      (canonical_join (hm.canonical hval) hm.isMember)

theorem Grammar.Members.canonical {n : Nat} {s : List Char} {t : TypeExpr} {ts : List TypeExpr}
    (h : Members n s t ts) (hs : s = written t ++ writtenRest ts) :
    ∀ v ∈ t :: ts, Canonical v := by
  match h with
  | .one h =>
    simp only [writtenRest, List.append_nil] at hs
    have hc := h.canonical hs
    simpa using hc
  | @Members.more n m s r t u ts h hr =>
    rw [writtenRest] at hs
    obtain ⟨hfirst, hothers⟩ := cut_eq_of_weight_le (by decide) hs h.weight_written_le
      hr.weight_written_le
    have hc := h.canonical hfirst
    have hcs := hr.canonical hothers
    intro v hv
    rcases List.mem_cons.1 hv with rfl | hv
    · exact hc
    · exact hcs v hv

end

/-! ### The written form of what is canonical -/

theorem IsNamed.isCollection {c : Option String} (h : IsNamed c) :
    IsCollection (collectionName c) c := by
  cases c with
  | none => exact .array
  | some c => simpa [collectionName] using IsCollection.className h

/-- Types that derive from their written forms do so as members. -/
theorem members_written {t : TypeExpr} {ts : List TypeExpr}
    (h : ∀ v ∈ t :: ts, Single (nesting v) (written v) v) :
    Members (max (nesting t) (nestingAll ts)) (written t ++ writtenRest ts) t ts := by
  induction ts generalizing t with
  | nil => simpa [nestingAll, writtenRest] using Members.one (h t (by simp))
  | cons u us ih =>
    rw [nestingAll, writtenRest]
    exact .more (h t (by simp)) (ih fun v hv => h v (List.mem_cons_of_mem _ hv))

/-- A single type that may be the base of an array is one with brackets behind it. -/
theorem Grammar.Single.array {n : Nat} {s : List Char} {t : TypeExpr} (h : Single n s t)
    (hb : IsBase t) (l : { n : Nat // 0 < n }) : Single n (s ++ pairs l) (.array t l) := by
  cases h with
  | keyword hk => exact .keywordArray hk l
  | className hn => exact .classArray hn l
  | keywordArray => exact absurd hb id
  | classArray => exact absurd hb id
  | group => exact absurd hb id
  | @generic _ _ c _ hg =>
    cases c with
    | none => cases hg <;> exact absurd hb id
    | some c => exact .genericArray hg l
  | genericArray => exact absurd hb id

/-- A canonical type derives from its written form, as a single type unless it is a
union. -/
theorem Canonical.derives {t : TypeExpr} (h : Canonical t) :
    (IsMember t → Single (nesting t) (written t) t) ∧
      ∃ u us, Members (nesting t) (written t) u us ∧ t = join u us := by
  have key : ∀ {t : TypeExpr}, Single (nesting t) (written t) t →
      (IsMember t → Single (nesting t) (written t) t) ∧
        ∃ u us, Members (nesting t) (written t) u us ∧ t = join u us :=
    fun hs => ⟨fun _ => hs, _, [], .one hs, rfl⟩
  induction h with
  | keyword h => exact key (.keyword h)
  | @className m h =>
    have hs := Single.className h
    rw [String.ofList_toList] at hs
    exact key hs
  | @array t l h hb ih =>
    apply key
    obtain ⟨hsingle, u, us, hm, he⟩ := ih
    rw [written, nesting]
    split
    next =>
      have hs := Single.group hm l
      rw [← he] at hs
      simpa using hs
    next hu =>
      exact (hsingle (Bool.eq_false_iff.2 hu)).array hb l
  | @generic c v hc h ih =>
    obtain ⟨-, u, us, hm, rfl⟩ := ih
    exact key (.generic (.value hc.isCollection hm))
  | @keyed c k v hc hk h ihk ih =>
    obtain ⟨-, x, xs, hx, rfl⟩ := ihk
    obtain ⟨-, u, us, hm, rfl⟩ := ih
    have hgap : ∀ d ∈ [' '], isGap d = true := by simp [isGap]
    exact key (.generic (.keyed hc.isCollection hx hgap hm))
  | @union u v vs hu hv hvs hm ihu ihv ihvs =>
    refine ⟨fun hu => absurd hu (by simp [IsMember, isUnion]), u, v :: vs, ?_, rfl⟩
    have hall : ∀ w ∈ u :: v :: vs, Single (nesting w) (written w) w := by
      intro w hw
      have hmw := hm w hw
      simp only [List.mem_cons] at hw
      rcases hw with rfl | rfl | hw
      · exact ihu.1 hmw
      · exact ihv.1 hmw
      · exact (ihvs w hw).1 hmw
    have := members_written hall
    rwa [← written_join] at this

/-- A type derives from its written form exactly when it is canonical. -/
theorem expression_written_iff {n : Nat} {t : TypeExpr} :
    Expression n (written t) t ↔ Canonical t ∧ n = nesting t := by
  constructor
  · intro h
    have hc : Canonical t := by
      obtain ⟨u, us, hm, rfl⟩ := h
      exact canonical_join (hm.canonical (written_join u us)) hm.isMember
    exact ⟨hc, h.nesting_eq.trans (Expression.nesting_eq hc.derives.2).symm⟩
  · rintro ⟨hc, rfl⟩
    exact hc.derives.2

theorem toList_text (t : TypeExpr) : (text t).toList = written t := String.toList_ofList

/-- Reading what a type is written as gives the type back exactly when it is canonical and
its nesting is within the bound. -/
theorem parse?_text_iff_canonical (asked : Int) (t : TypeExpr) :
    parse? asked (toString t) = some t ↔
      Canonical t ∧ (nesting t : Int) ≤ max 0 (min asked 62) := by
  show parse? asked (text t) = some t ↔ _
  rw [parse?_eq_some_iff, toList_text, ← Nesting.le_allowance_iff]
  simp only [expression_written_iff]
  constructor
  · rintro ⟨n, hle, hc, rfl⟩
    exact ⟨hc, hle⟩
  · rintro ⟨hc, hle⟩
    exact ⟨nesting t, hle, hc, rfl⟩

end DocComment.TypeExpr
