import DocComment.Proofs.Text.Lines
import DocComment.Proofs.Version
import DocComment.Version.Grammar
import Mathlib.Data.List.TakeWhile

/-! The version that is read is the longest one that the text begins with. What each reader takes
is of its form, and of a text that a form stands in front of it takes no less than that. The first
two numbers end where a period follows; only the last one and the identifiers may go on.

The longest beginning of a form is one text, and it ends where a character follows that the form
excludes. -/

namespace DocComment

namespace Text

variable {form : List Char → Prop} {s v w : List Char}

theorem IsLongest.begins (h : IsLongest form s v) : v <+: s := by
  cases h with
  | found hv hs hmax => exact hs
  | missing hno => exact List.nil_prefix

theorem IsLongest.length_le (h : IsLongest form s v) (hw : form w) (hs : w <+: s) :
    w.length ≤ v.length := by
  cases h with
  | found hv hs' hmax => exact hmax w hw hs
  | missing hno => exact absurd hs (hno w hw)

theorem IsLongest.length_le_of_isLongest (hv : IsLongest form s v) (hw : IsLongest form s w) :
    v.length ≤ w.length := by
  cases hv with
  | found hform hs hmax => exact hw.length_le hform hs
  | missing hno => exact Nat.zero_le _

theorem IsLongest.unique (hv : IsLongest form s v) (hw : IsLongest form s w) : v = w := by
  have hle : v.length ≤ w.length := hv.length_le_of_isLongest hw
  have hge : w.length ≤ v.length := hw.length_le_of_isLongest hv
  exact (List.prefix_of_prefix_length_le hv.begins hw.begins hle).eq_of_length (by omega)

/-- What has a form ends at a character that the form excludes. -/
theorem isLongest_of_notMem {c : Char} (hv : form v) (hc : ∀ w, form w → c ∉ w)
    (r : List Char) : IsLongest form (v ++ c :: r) v := by
  refine .found hv (List.prefix_append v _) fun w hw hs => ?_
  by_contra hlt
  -- a longer one would have the character behind it
  have hlonger : v ++ [c] <+: w := by
    refine List.prefix_of_prefix_length_le (by simp) hs ?_
    simp only [List.length_append, List.length_singleton]
    omega
  exact hc w hw (hlonger.subset (by simp))

theorem isLongest_nil (s : List Char) : IsLongest (· = []) s [] :=
  .found rfl List.nil_prefix fun _ hw _ => (congrArg List.length hw).le

theorem isLongest_takeWhile (p : Char → Bool) (s : List Char) :
    IsLongest (fun l => ∀ c ∈ l, p c = true) s (s.takeWhile p) := by
  refine .found (fun c hc => List.mem_takeWhile_imp hc) (List.takeWhile_prefix p) fun w hw hs => ?_
  obtain ⟨r, rfl⟩ := hs
  rw [List.takeWhile_append_of_pos hw, List.length_append]
  exact Nat.le_add_right _ _

end Text

namespace Version

open Text

/-! ### What is read is a version -/

theorem number?_sound {s n r : List Char} (h : number? s = some (n, r)) : IsNumber n := by
  unfold number? at h
  split at h
  next =>
    obtain ⟨rfl, rfl⟩ := Prod.mk.inj (Option.some.inj h)
    exact .zero
  next c t hz =>
    split_ifs at h with hc
    obtain ⟨rfl, rfl⟩ := Prod.mk.inj (Option.some.inj h)
    exact .digits hc hz fun d hd => List.mem_takeWhile_imp hd
  next => exact absurd h (by simp)

theorem dotNumber?_sound {s n r : List Char} (h : dotNumber? s = some (n, r)) :
    ∃ m, IsNumber m ∧ n = '.' :: m := by
  unfold dotNumber? at h
  split at h
  · obtain ⟨⟨m, q⟩, hm, he⟩ := Option.map_eq_some_iff.1 h
    obtain ⟨rfl, rfl⟩ := Prod.mk.inj he
    exact ⟨m, number?_sound hm, rfl⟩
  · exact absurd h (by simp)

theorem IsIdentifiers.cons {c : Char} {l : List Char} (hc : isIdentifierPart c = true)
    (h : IsIdentifiers l) : IsIdentifiers (c :: l) := by
  cases h with
  | one hd hl => exact .one hc (List.forall_mem_cons.2 ⟨hd, hl⟩)
  | more hd hl hr => exact .more hc (List.forall_mem_cons.2 ⟨hd, hl⟩) hr

/-- Any character of identifiers and what they go on with behind it are identifiers. -/
theorem isIdentifiers_cons_tail {c : Char} (hc : isIdentifierPart c = true) (s : List Char) :
    IsIdentifiers (c :: (identifierTail s).1) := by
  fun_induction identifierTail s generalizing c with
  | case1 d r hd l q hl ih =>
    rw [hl] at ih
    exact .more (l := []) hc (by simp) (ih hd)
  | case2 => exact .one hc (by simp)
  | case3 d r hnot hd l q hl ih =>
    rw [hl] at ih
    exact (ih hd).cons hc
  | case4 => exact .one hc (by simp)
  | case5 => exact .one hc (by simp)

theorem preRelease_sound (s : List Char) : IsPreRelease (preRelease s).1 := by
  unfold preRelease
  split
  · split_ifs with hc
    · exact .some (isIdentifiers_cons_tail hc _)
    · exact .none
  · exact .none

theorem take?_sound {s v r : List Char} (h : take? s = some (v, r)) : IsVersion v := by
  obtain ⟨major, minor, patch, p, q, t, hmajor, hminor, hpatch, rfl, rfl⟩ := exists_of_take? h
  obtain ⟨minor, hm, rfl⟩ := dotNumber?_sound hminor
  obtain ⟨patch, hp, rfl⟩ := dotNumber?_sound hpatch
  simpa using IsVersion.mk (number?_sound hmajor) hm hp (preRelease_sound t)

/-! ### No version is longer -/

theorem number?_append {n r : List Char} (hn : IsNumber n) (hr : ∀ c ∈ r.head?, isDigit c = false) :
    number? (n ++ r) = some (n, r) := by
  cases hn with
  | zero => rfl
  | digits hc hz hd =>
    simp [number?, hc, takeWhile_append_stop hd hr, dropWhile_append_stop hd hr]

/-- A number goes on with the digits that stand behind it. -/
theorem exists_number?_append {n : List Char} (hn : IsNumber n) (r : List Char) :
    ∃ m q, number? (n ++ r) = some (m, q) ∧ n.length ≤ m.length := by
  cases hn with
  | zero => exact ⟨['0'], r, rfl, le_refl _⟩
  | @digits c ds hc hz hd =>
    refine ⟨c :: (ds ++ r).takeWhile isDigit, (ds ++ r).dropWhile isDigit, ?_, ?_⟩
    · simp [number?, hc]
    · rw [List.takeWhile_append_of_pos hd]
      simp

theorem identifierTail_part {c : Char} (hc : isIdentifierPart c = true) (s : List Char) :
    identifierTail (c :: s) = (c :: (identifierTail s).1, (identifierTail s).2) := by
  have hdot : c ≠ '.' := by
    rintro rfl
    exact absurd hc (by decide)
  rw [identifierTail]
  · rw [if_pos hc]
  · exact fun d r he => absurd he hdot

theorem identifierTail_period {c : Char} (hc : isIdentifierPart c = true) (s : List Char) :
    identifierTail ('.' :: c :: s) = ('.' :: c :: (identifierTail s).1, (identifierTail s).2) := by
  rw [identifierTail, if_pos hc]

theorem identifierTail_parts {l : List Char} (hl : ∀ c ∈ l, isIdentifierPart c = true)
    (s : List Char) :
    identifierTail (l ++ s) = (l ++ (identifierTail s).1, (identifierTail s).2) := by
  induction l with
  | nil => rfl
  | cons c l ih =>
    obtain ⟨hc, hl⟩ := List.forall_mem_cons.1 hl
    rw [List.cons_append, identifierTail_part hc, ih hl, List.cons_append]

/-- Identifiers that stand behind a character of them are taken along. -/
theorem IsIdentifiers.exists_tail {l : List Char} (h : IsIdentifiers l) (s : List Char) :
    ∃ c t, l = c :: t ∧ isIdentifierPart c = true ∧
      identifierTail (t ++ s) = (t ++ (identifierTail s).1, (identifierTail s).2) := by
  induction h with
  | one hc hl => exact ⟨_, _, rfl, hc, identifierTail_parts hl s⟩
  | more hc hl hr ih =>
    obtain ⟨d, t, rfl, hd, ht⟩ := ih
    refine ⟨_, _, rfl, hc, ?_⟩
    rw [List.append_assoc, identifierTail_parts hl, List.cons_append, List.cons_append,
      identifierTail_period hd, ht]
    simp

theorem length_le_preRelease {l : List Char} (h : IsIdentifiers l) (s : List Char) :
    ('-' :: l).length ≤ (preRelease ('-' :: (l ++ s))).1.length := by
  obtain ⟨c, t, rfl, hc, ht⟩ := h.exists_tail s
  rw [List.cons_append, preRelease, if_pos hc, ht]
  simp

/-- The last number and what stands behind it, when it is a pre-release, are read, or more. -/
theorem exists_number?_preRelease {n pre : List Char} (hn : IsNumber n) (hp : IsPreRelease pre)
    (s : List Char) :
    ∃ m q, number? (n ++ (pre ++ s)) = some (m, q) ∧
      n.length + pre.length ≤ m.length + (preRelease q).1.length := by
  cases hp with
  | none =>
    obtain ⟨m, q, hm, hle⟩ := exists_number?_append hn s
    exact ⟨m, q, hm, le_trans hle (Nat.le_add_right _ _)⟩
  | @some l hl =>
    have hstop : ∀ c ∈ ('-' :: (l ++ s)).head?, isDigit c = false := by simp [isDigit]
    refine ⟨n, '-' :: (l ++ s), number?_append hn hstop, ?_⟩
    exact Nat.add_le_add_left (length_le_preRelease hl s) _

theorem take?_of_numbers {s p q r major minor patch : List Char}
    (hmajor : number? s = some (major, '.' :: p)) (hminor : number? p = some (minor, '.' :: q))
    (hpatch : number? q = some (patch, r)) :
    take? s = some (major ++ '.' :: (minor ++ '.' :: (patch ++ (preRelease r).1)),
      (preRelease r).2) := by
  simp [take?, dotNumber?, hmajor, hminor, hpatch]

/-- A version that a text begins with is read, or a longer one. -/
theorem exists_take?_append {v : List Char} (hv : IsVersion v) (s : List Char) :
    ∃ w r, take? (v ++ s) = some (w, r) ∧ v.length ≤ w.length := by
  obtain ⟨hmajor, hminor, hpatch, hpre⟩ := hv
  obtain ⟨m, q, hm, hle⟩ := exists_number?_preRelease hpatch hpre s
  -- a period ends the first two numbers, whatever they are followed by
  have hdot (r : List Char) : ∀ c ∈ ('.' :: r).head?, isDigit c = false := by simp [isDigit]
  have hread := take?_of_numbers (number?_append hmajor (hdot _)) (number?_append hminor (hdot _)) hm
  refine ⟨_, _, by simpa using hread, ?_⟩
  simp only [List.length_append, List.length_cons]
  omega

theorem isLongest_of_take? {s v r : List Char} (h : take? s = some (v, r)) :
    IsLongest IsVersion s v := by
  refine .found (take?_sound h) ⟨r, (eq_of_take? h).symm⟩ fun w hw hs => ?_
  obtain ⟨t, rfl⟩ := hs
  obtain ⟨u, q, hu, hle⟩ := exists_take?_append hw t
  obtain ⟨rfl, -⟩ := Prod.mk.inj (Option.some.inj (h.symm.trans hu))
  exact hle

theorem not_isVersion_of_take? {s w : List Char} (h : take? s = none) (hw : IsVersion w) :
    ¬ w <+: s := by
  rintro ⟨t, rfl⟩
  obtain ⟨u, q, hu, -⟩ := exists_take?_append hw t
  exact absurd (h.symm.trans hu) (by simp)

/-! ### The parts of a text -/

theorem field_of_ne_nil {l : List Char} (hl : l ≠ []) : field l = some (String.ofList l) :=
  if_neg hl

theorem IsVersion.field {v : List Char} (hv : IsVersion v) : field v = some (String.ofList v) := by
  obtain ⟨-, -, -, -⟩ := hv
  exact field_of_ne_nil (by simp)

/-- The version in front is the longest one, and the rest is what follows it. -/
theorem exists_leading (s : List Char) :
    ∃ v, s = v ++ (leading s).2 ∧ IsLongest IsVersion s v ∧
      (leading s).1.map String.ofList = field v := by
  unfold leading
  split
  next v r h =>
    exact ⟨v, eq_of_take? h, isLongest_of_take? h, (take?_sound h).field.symm⟩
  next h =>
    exact ⟨[], rfl, .missing fun w hw => not_isVersion_of_take? h hw, rfl⟩

/-- The ending version is the longest one behind the colon, which it takes along. -/
theorem exists_ending (s : List Char) :
    ∃ e, s = e ++ (ending s).2 ∧ IsLongest IsEnding s e ∧
      (ending s).1.map String.ofList = field (e.drop 1) := by
  unfold ending
  split
  next r =>
    split
    next v q h =>
      refine ⟨':' :: v, congrArg (':' :: ·) (eq_of_take? h), ?_, (take?_sound h).field.symm⟩
      refine .found (.mk (take?_sound h)) ⟨q, congrArg (':' :: ·) (eq_of_take? h).symm⟩ ?_
      rintro w ⟨hw⟩ hs
      exact Nat.succ_le_succ ((isLongest_of_take? h).length_le hw (List.cons_prefix_cons.1 hs).2)
    next h =>
      refine ⟨[], rfl, .missing ?_, rfl⟩
      rintro w ⟨hw⟩ hs
      exact not_isVersion_of_take? h hw (List.cons_prefix_cons.1 hs).2
  next hcolon =>
    refine ⟨[], rfl, .missing ?_, rfl⟩
    rintro w ⟨hw⟩ ⟨t, rfl⟩
    exact hcolon _ rfl

/-- The remark is what follows the longest gap. -/
theorem exists_remark (s : List Char) :
    ∃ gap r, s = gap ++ r ∧ IsLongest (fun l => ∀ c ∈ l, isGap c = true) s gap ∧
      (remark s).map String.ofList = field r := by
  refine ⟨s.takeWhile isGap, s.dropWhile isGap, List.takeWhile_append_dropWhile.symm,
    isLongest_takeWhile isGap s, ?_⟩
  unfold remark
  split
  next h =>
    rw [h]
    rfl
  next r hne =>
    exact (field_of_ne_nil hne).symm

end Version

end DocComment
