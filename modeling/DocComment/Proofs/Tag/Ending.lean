import DocComment.Proofs.Tag.Version
import DocComment.Reader

/-! The ending version of a deprecation. It comes behind a starting version, unless the
description begins with its colon; then it is read without one. -/

namespace DocComment

open Text Version

theorem Reader.tags_read (reader : Reader) (comment : String) :
    (reader.read comment).tags =
      Occurrence.resolveAll reader.interpreters (reader.occurrences comment) := by
  unfold read occurrences
  cases Regions.of? (Comment.undecorate comment) with
  | none => rfl
  | some r => rfl

namespace Version

variable {s v e gap r : List Char}

theorem isSome_field_iff {l : List Char} : (field l).isSome ↔ l ≠ [] := by
  unfold field
  split <;> simp_all

/-- No version begins where an ending does. -/
theorem eq_nil_of_isEnding (hv : IsLongest IsVersion s v) {w : List Char} (hw : IsEnding w)
    (hs : w <+: s) : v = [] := by
  cases hv with
  | missing => rfl
  | @found v hversion hbegins _ =>
    cases v with
    | nil => rfl
    | cons c v =>
      obtain ⟨_⟩ := hw
      obtain ⟨t, rfl⟩ := hs
      obtain ⟨rfl, -⟩ := List.cons_prefix_cons.1 hbegins
      exact absurd List.mem_cons_self (IsVersion.notMem rfl _ hversion)

theorem IsEnding.one_lt_length (h : IsEnding e) : 1 < e.length := by
  obtain ⟨hv⟩ := h
  obtain ⟨-, -, -, -⟩ := hv
  simp only [List.length_cons, List.length_append]
  omega

/-- In a cut an ending has a version in front of it unless the text begins with an ending. -/
theorem IsCut.starting_of_ending_iff (h : IsCut IsEnding s v e gap r) :
    ((field (e.drop 1)).isSome → (field v).isSome) ↔ ¬ ∃ w, IsEnding w ∧ w <+: s := by
  rw [isSome_field_iff, isSome_field_iff]
  constructor
  · rintro himp ⟨w, hw, hs⟩
    have hv : v = [] := eq_nil_of_isEnding h.version hw hs
    have hrest : s = e ++ (gap ++ r) := by rw [h.whole, hv, List.nil_append]
    have hlen : w.length ≤ e.length := h.ending.length_le hw (hrest ▸ hs)
    refine himp (fun he => ?_) hv
    exact absurd (hw.one_lt_length.trans_le hlen) (Nat.not_lt.2 (List.drop_eq_nil_iff.1 he))
  · rintro hno he rfl
    have hwhole := h.whole
    cases h.ending with
    | missing => exact he rfl
    | found hform _ _ => exact hno ⟨e, hform, hwhole ▸ List.prefix_append e _⟩

end Version

/-- What the interpreter of deprecations makes of an occurrence. -/
theorem Builtin.deprecated_cases (renderer : Renderer) (o : Occurrence) :
    (∃ starting ending description,
      deprecated.tag? renderer o.kind o.body = some (.deprecated starting ending description) ∧
        ((ending.isSome → starting.isSome) ↔ ¬ o.LeadsWithEnding)) ∨
      deprecated.tag? renderer o.kind o.body = none ∧ (o.kind = .signature ∨ o.kind = .inline) := by
  cases hk : o.kind with
  | bare =>
    have hno : ¬ o.LeadsWithEnding := fun hl => absurd (hk.symm.trans hl.kind) (by decide)
    exact Or.inl ⟨none, none, none, rfl, by simp [hno]⟩
  | description =>
    by_cases hn : '\n' ∈ o.body.toList
    · have hno : ¬ o.LeadsWithEnding := fun hl => hl.line hn
      exact Or.inl ⟨none, none, none, by simp [tag?, deprecatedTag, hn], by simp [hno]⟩
    · obtain ⟨v, e, gap, r, hc, htag⟩ := exists_deprecatedTag hn
      have hleads : (∃ w, IsEnding w ∧ w <+: o.body.toList) ↔ o.LeadsWithEnding :=
        ⟨fun he => ⟨hk, hn, he⟩, fun hl => hl.ending⟩
      exact Or.inl ⟨_, _, _, congrArg some htag,
        hc.starting_of_ending_iff.trans (not_congr hleads)⟩
  | signature => exact Or.inr ⟨rfl, Or.inl rfl⟩
  | inline => exact Or.inr ⟨rfl, Or.inr rfl⟩

namespace Reader

/-- Where a comment is read with the built-in tag of deprecations, each deprecation has an ending
version only if it has a starting version, unless its description begins with the ending. Only
inline tags and signatures give no deprecation. -/
theorem read_deprecated (reader : Reader) {renderer : Renderer}
    (h : reader.interpreters "deprecated" = some (Builtin.deprecated.interpreter renderer))
    (comment : String) :
    (reader.read comment).tags =
        Occurrence.resolveAll reader.interpreters (reader.occurrences comment) ∧
      ∀ o ∈ reader.occurrences comment, o.name = "deprecated" →
        (∃ starting ending description,
          o.resolve reader.interpreters = some (.deprecated starting ending description) ∧
            ((ending.isSome → starting.isSome) ↔ ¬ o.LeadsWithEnding)) ∨
          o.resolve reader.interpreters = none ∧ (o.kind = .signature ∨ o.kind = .inline) := by
  refine ⟨reader.tags_read comment, fun o _ hname => ?_⟩
  rw [Occurrence.resolve, hname, h]
  exact Builtin.deprecated_cases renderer o

/-- Two deprecations: one with both versions, and one whose description begins with its ending. -/
theorem read_deprecated_twice :
    let reader := builtin .plain ⟨2, [], []⟩
    let comment := "/**\n * @deprecated 1.2.0:2.0.0 a\n * @deprecated :2.0.0\n */"
    let both : Occurrence := ⟨"deprecated", none, .description, "1.2.0:2.0.0 a"⟩
    let alone : Occurrence := ⟨"deprecated", none, .description, ":2.0.0"⟩
    reader.interpreters "deprecated" = some (Builtin.deprecated.interpreter .plain) ∧
      (reader.read comment).tags = Occurrence.resolveAll reader.interpreters [both, alone] ∧
      both.resolve reader.interpreters =
        some (.deprecated (some "1.2.0") (some "2.0.0") (some "a")) ∧ ¬ both.LeadsWithEnding ∧
      alone.resolve reader.interpreters = some (.deprecated none (some "2.0.0") none) ∧
      alone.LeadsWithEnding := by
  intro reader comment both alone
  have h : reader.interpreters "deprecated" = some (Builtin.deprecated.interpreter .plain) := rfl
  have hos : reader.occurrences comment = [both, alone] := by decide +kernel
  obtain ⟨htags, hall⟩ := read_deprecated reader h comment
  rw [hos] at htags hall
  have hboth : both.resolve reader.interpreters =
      some (.deprecated (some "1.2.0") (some "2.0.0") (some "a")) := by decide +kernel
  have halone : alone.resolve reader.interpreters = some (.deprecated none (some "2.0.0") none) := by
    decide +kernel
  refine ⟨h, htags, hboth, ?_, halone, ?_⟩
  · obtain ⟨starting, ending, description, ht, hiff⟩ | ⟨hnone, -⟩ := hall both (by simp) rfl
    · obtain ⟨rfl, rfl, rfl⟩ := Tag.deprecated.inj (Option.some.inj (hboth.symm.trans ht))
      exact hiff.1 fun _ => rfl
    · exact absurd (hboth.symm.trans hnone) (by simp)
  · obtain ⟨starting, ending, description, ht, hiff⟩ | ⟨hnone, -⟩ := hall alone (by simp) rfl
    · obtain ⟨rfl, rfl, rfl⟩ := Tag.deprecated.inj (Option.some.inj (halone.symm.trans ht))
      by_contra hno
      exact absurd (hiff.2 hno rfl) (by decide)
    · exact absurd (halone.symm.trans hnone) (by simp)

/-- An ending is read where no starting version stands. -/
theorem read_deprecated_without_starting :
    (builtin .plain ⟨2, [], []⟩).interpreters "deprecated" =
        some (Builtin.deprecated.interpreter .plain) ∧
      ¬ ∀ starting ending description, .deprecated starting ending description ∈
          ((builtin .plain ⟨2, [], []⟩).read "@deprecated :2.0.0").tags →
        ending.isSome → starting.isSome := by
  refine ⟨rfl, fun h => ?_⟩
  have hread : .deprecated none (some "2.0.0") none ∈
      ((builtin .plain ⟨2, [], []⟩).read "@deprecated :2.0.0").tags := by
    decide +kernel
  exact absurd (h none (some "2.0.0") none hread rfl) (by decide)

end Reader

end DocComment
