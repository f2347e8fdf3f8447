import DocComment.Proofs.Tag.Registry
import DocComment.Tag.Registry

/-! Disabling a built-in tag turns its occurrences into unknown tags and touches no others. The
interpreter that a name has depends on that name alone, an occurrence contributes at its own
place what its name decides, and an unknown tag is never left out. -/

namespace DocComment

/-! ### Interpreters -/

namespace Registry

variable {renderer : Renderer} {disabled more : List String} {name : String}

theorem get?_builtin_eq_none
    (h : name ∈ disabled ∨ ∀ b : Builtin, b.name ≠ name) :
    (builtin renderer disabled).get? name = none := by
  rw [Option.eq_none_iff_forall_ne_some]
  intro i hi
  obtain ⟨hn, b, hb, -⟩ := get?_builtin_eq_some_iff.1 hi
  rcases h with h | h
  · exact hn h
  · exact h b hb

/-- Whether other names are disabled, or names that no built-in tag has, makes no difference. -/
theorem get?_builtin_congr (h : ∀ b : Builtin, b.name = name → (name ∈ disabled ↔ name ∈ more)) :
    (builtin renderer disabled).get? name = (builtin renderer more).get? name := by
  refine Option.ext fun i => ?_
  rw [get?_builtin_eq_some_iff, get?_builtin_eq_some_iff]
  constructor
  · rintro ⟨hn, b, hb, rfl⟩
    exact ⟨fun hm => hn ((h b hb).2 hm), b, hb, rfl⟩
  · rintro ⟨hn, b, hb, rfl⟩
    exact ⟨fun hm => hn ((h b hb).1 hm), b, hb, rfl⟩

end Registry

namespace Occurrence

variable {renderer : Renderer} {disabled more : List String} {o : Occurrence}

/-! ### One occurrence -/

theorem isUnknown_unknown (o : Occurrence) : Tag.IsUnknown o o.unknown := by
  unfold unknown
  split
  · exact .empty ‹_›
  · exact .inline ‹_›
  · exact .description (Or.inl ‹_›)
  · exact .description (Or.inr ‹_›)

theorem resolve_of_none {interpreters : Interpreters} (h : interpreters o.name = none) :
    o.resolve interpreters = some o.unknown := by
  rw [resolve, h]

theorem resolve_congr {is js : Interpreters} (h : is o.name = js o.name) :
    o.resolve is = o.resolve js := by
  rw [resolve, resolve, h]

theorem contributes_resolve (hsub : disabled ⊆ more) (o : Occurrence) :
    o.Contributes disabled more (o.resolve (Registry.builtin renderer disabled).get?)
      (o.resolve (Registry.builtin renderer more).get?) where
  same h := by
    refine resolve_congr (Registry.get?_builtin_congr fun b _ => ?_)
    rcases h with h | h
    · exact ⟨fun hm => absurd hm h, fun hd => absurd (hsub hd) h⟩
    · exact ⟨fun _ => h, fun _ => hsub h⟩
  unknown h := ⟨o.unknown, resolve_of_none (Registry.get?_builtin_eq_none h), isUnknown_unknown o⟩

/-- An occurrence that gives a tag gives one also where more names are disabled. -/
theorem Contributes.isSome {s t : Option Tag} (h : o.Contributes disabled more s t)
    (hs : s.isSome = true) : t.isSome = true := by
  by_cases hm : o.name ∈ more
  · obtain ⟨u, rfl, -⟩ := h.unknown (Or.inl hm)
    rfl
  · rwa [h.same (Or.inl hm)]

/-! ### All occurrences -/

theorem tagsWithout_split (disabled : List String) (os ps : List Occurrence) (o : Occurrence) :
    tagsWithout renderer disabled (os ++ o :: ps) =
      tagsWithout renderer disabled os ++
        ((o.resolve (Registry.builtin renderer disabled).get?).toList ++
          tagsWithout renderer disabled ps) := by
  rw [tagsWithout, resolveAll, List.filterMap_append, List.filterMap_cons]
  split
  next h =>
    rw [h]
    rfl
  next t h =>
    rw [h]
    rfl

theorem length_tagsWithout_le (hsub : disabled ⊆ more) (os : List Occurrence) :
    (tagsWithout renderer disabled os).length ≤ (tagsWithout renderer more os).length := by
  simp only [tagsWithout, resolveAll, List.length_filterMap_eq_countP]
  exact List.countP_mono_left fun o _ h => (contributes_resolve hsub o).isSome h

theorem tagsWithout_congr (h : ∀ b : Builtin, b.name ∈ disabled ↔ b.name ∈ more)
    (os : List Occurrence) :
    tagsWithout renderer disabled os = tagsWithout renderer more os := by
  refine List.filterMap_congr fun o _ => resolve_congr (Registry.get?_builtin_congr ?_)
  rintro b hb
  exact hb ▸ h b

/-- Where more names are disabled, an occurrence contributes what it did before at the same
place, or an unknown tag if its name is one of them. No tag is lost, and only the names of
built-in tags count. -/
theorem tagsWithout_more (renderer : Renderer) {disabled more : List String}
    (hsub : disabled ⊆ more) (os : List Occurrence) :
    (∀ before o behind, os = before ++ o :: behind → ∃ s t, o.Contributes disabled more s t ∧
      tagsWithout renderer disabled os = tagsWithout renderer disabled before ++
        (s.toList ++ tagsWithout renderer disabled behind) ∧
      tagsWithout renderer more os = tagsWithout renderer more before ++
        (t.toList ++ tagsWithout renderer more behind)) ∧
    (tagsWithout renderer disabled os).length ≤ (tagsWithout renderer more os).length ∧
    ∀ names : List String, (∀ b : Builtin, b.name ∈ names ↔ b.name ∈ more) →
      tagsWithout renderer names os = tagsWithout renderer more os := by
  refine ⟨?_, length_tagsWithout_le hsub os, fun names h => tagsWithout_congr h os⟩
  rintro before o behind rfl
  exact ⟨_, _, contributes_resolve hsub o, tagsWithout_split disabled before behind o,
    tagsWithout_split more before behind o⟩

/-- A signature that `version` rejects is left out where the tag is enabled. It is told as an
unknown tag where it is not, between the same two tags. -/
theorem tagsWithout_more_rejected :
    ["todo"] ⊆ ["todo", "custom", "version"] ∧
      tagsWithout .plain ["todo"] [⟨"todo", none, .bare, ""⟩,
          ⟨"version", some "x", .signature, "(a)"⟩, ⟨"api", none, .bare, ""⟩] =
        [.unknownEmpty "todo" none, .api] ∧
      tagsWithout .plain ["todo", "custom", "version"] [⟨"todo", none, .bare, ""⟩,
          ⟨"version", some "x", .signature, "(a)"⟩, ⟨"api", none, .bare, ""⟩] =
        [.unknownEmpty "todo" none, .unknownDescription "version" (some "x") "(a)", .api] ∧
      ∃ s t, (⟨"version", some "x", .signature, "(a)"⟩ : Occurrence).Contributes ["todo"]
          ["todo", "custom", "version"] s t ∧
        [.unknownEmpty "todo" none, .api] = [.unknownEmpty "todo" none] ++ (s.toList ++ [.api]) ∧
        [.unknownEmpty "todo" none, .unknownDescription "version" (some "x") "(a)", .api] =
          [.unknownEmpty "todo" none] ++ (t.toList ++ [.api]) := by
  have hsub : ["todo"] ⊆ ["todo", "custom", "version"] := by simp
  have hread := (tagsWithout_more .plain hsub [⟨"todo", none, .bare, ""⟩,
    ⟨"version", some "x", .signature, "(a)"⟩, ⟨"api", none, .bare, ""⟩]).1 [_] _ [_] rfl
  exact ⟨hsub, by decide +kernel, by decide +kernel, hread⟩

end Occurrence

end DocComment
