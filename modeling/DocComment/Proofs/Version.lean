import DocComment.Version
import Mathlib.Data.List.Basic

/-! Reading a version loses nothing: what is taken off the front of a text and what is left of
it are the whole text. -/

namespace DocComment.Version

open Text

theorem eq_of_number? {s n r : List Char} (h : number? s = some (n, r)) : s = n ++ r := by
  unfold number? at h
  split at h
  · obtain ⟨rfl, rfl⟩ := Prod.mk.inj (Option.some.inj h)
    rfl
  · split_ifs at h
    obtain ⟨rfl, rfl⟩ := Prod.mk.inj (Option.some.inj h)
    rw [List.cons_append, List.takeWhile_append_dropWhile]
  · exact absurd h (by simp)

theorem eq_of_dotNumber? {s n r : List Char} (h : dotNumber? s = some (n, r)) : s = n ++ r := by
  unfold dotNumber? at h
  split at h
  · obtain ⟨⟨m, q⟩, hm, he⟩ := Option.map_eq_some_iff.1 h
    obtain ⟨rfl, rfl⟩ := Prod.mk.inj he
    rw [eq_of_number? hm, List.cons_append]
  · exact absurd h (by simp)

theorem identifierTail_append (s : List Char) :
    (identifierTail s).1 ++ (identifierTail s).2 = s := by
  fun_induction identifierTail s with
  | case1 c r hc l q hl ih =>
    rw [hl] at ih
    rw [List.cons_append, List.cons_append, ih]
  | case2 => rfl
  | case3 c r hnot hc l q hl ih =>
    rw [hl] at ih
    rw [List.cons_append, ih]
  | case4 => rfl
  | case5 => rfl

theorem preRelease_append (s : List Char) : (preRelease s).1 ++ (preRelease s).2 = s := by
  unfold preRelease
  split
  next c r =>
    split_ifs
    · simp [identifierTail_append]
    · rfl
  next => rfl

/-- A version is read as three numbers and a pre-release, each from what the one before left. -/
theorem exists_of_take? {s v r : List Char} (h : take? s = some (v, r)) :
    ∃ major minor patch p q t, number? s = some (major, p) ∧ dotNumber? p = some (minor, q) ∧
      dotNumber? q = some (patch, t) ∧ v = major ++ minor ++ patch ++ (preRelease t).1 ∧
      r = (preRelease t).2 := by
  simp only [take?, Option.bind_eq_bind, Option.bind_eq_some_iff] at h
  obtain ⟨⟨major, p⟩, hmajor, ⟨minor, q⟩, hminor, ⟨patch, t⟩, hpatch, h⟩ := h
  obtain ⟨rfl, rfl⟩ := Prod.mk.inj (Option.some.inj h)
  exact ⟨major, minor, patch, p, q, t, hmajor, hminor, hpatch, rfl, rfl⟩

theorem eq_of_take? {s v r : List Char} (h : take? s = some (v, r)) : s = v ++ r := by
  obtain ⟨major, minor, patch, p, q, t, hmajor, hminor, hpatch, rfl, rfl⟩ := exists_of_take? h
  rw [eq_of_number? hmajor, eq_of_dotNumber? hminor, eq_of_dotNumber? hpatch]
  simp only [List.append_assoc, preRelease_append]

/-- What is read of a text and what is left of it are parts of it. -/
theorem infix_leading (s : List Char) :
    (∀ v ∈ (leading s).1, v <:+: s) ∧ (leading s).2 <:+: s := by
  unfold leading
  split
  next v r h =>
    rw [eq_of_take? h]
    refine ⟨?_, (List.suffix_append v r).isInfix⟩
    rintro w ⟨⟩
    exact (List.prefix_append v r).isInfix
  next => exact ⟨by simp, List.infix_refl s⟩

theorem infix_ending (s : List Char) :
    (∀ v ∈ (ending s).1, v <:+: s) ∧ (ending s).2 <:+: s := by
  unfold ending
  split
  · split
    next v q h =>
      rw [eq_of_take? h]
      refine ⟨?_, (List.suffix_append (':' :: v) q).isInfix⟩
      rintro w ⟨⟩
      exact List.infix_append [':'] v q
    next => exact ⟨by simp, List.infix_refl _⟩
  · exact ⟨by simp, List.infix_refl _⟩

theorem infix_remark {s r : List Char} (h : remark s = some r) : r <:+: s := by
  unfold remark at h
  split at h
  · exact absurd h (by simp)
  · obtain rfl := Option.some.inj h
    exact (List.dropWhile_suffix isGap).isInfix

end DocComment.Version
