import DocComment.Config.Check
import DocComment.Proofs.Value

/-! Loading settings makes its checks in their order and reports the first fault. Each step reports
the check or the two checks that it makes. -/

namespace DocComment.Config

/-! ### Depths -/

theorem checkDepth_eq_error_iff {n : Int} {err : ConfigError} :
    checkDepth n = .error err ↔ RangeFault n err := by
  rw [checkDepth]
  constructor
  · intro h
    split_ifs at h with hlow hhigh
    · exact Except.error.inj h ▸ .notPositive hlow
    · exact Except.error.inj h ▸ .tooLarge hhigh
  · rintro (hlow | hhigh)
    · rw [if_pos hlow]
    · have hlow : ¬ n < 1 := by
        have : (0 : Int) < Nesting.ceiling := by decide
        omega
      rw [if_neg hlow, if_pos hhigh]

theorem depthOf_eq_error_iff {v : Value} {err : ConfigError} :
    depthOf v = .error err ↔ DepthFault v err := by
  cases v with
  | integer n =>
    refine checkDepth_eq_error_iff.trans ⟨.range, ?_⟩
    rintro (h | h)
    · exact absurd rfl (h n)
    · exact h
  | _ =>
    constructor
    · intro h
      exact Except.error.inj h ▸ .type (by simp)
    · rintro ⟨⟩
      rfl

theorem environmentDepth_eq_error_iff {e : Environment} {err : ConfigError} :
    environmentDepth e >>= checkDepth = .error err ↔ EnvironmentFault e err := by
  rw [environmentDepth]
  constructor
  · intro h
    cases hs : e.maxDepth with
    | none =>
      rw [hs] at h
      have hdefault : checkDepth Nesting.default = .error err := h
      exact absurd hdefault (by simp [checkDepth, Nesting.default, Nesting.ceiling])
    | some s =>
      rw [hs] at h
      cases hn : Text.integer? s.toList with
      | some n =>
        simp only [hn] at h
        exact .range hs hn (checkDepth_eq_error_iff.1 h)
      | none =>
        simp only [hn] at h
        exact Except.error.inj h ▸ .text hs hn
  · rintro (⟨hs, hn⟩ | ⟨hs, hn, h⟩)
    · simp [hs, hn, bind, Except.bind]
    · simpa [hs, hn, bind, Except.bind] using checkDepth_eq_error_iff.2 h

variable {e : Environment} {s : Settings} {b c : Config}

/-- The depth of a caller, else that of the environment. -/
def depthFor (e : Environment) (s : Settings) : Except ConfigError Int :=
  match s.maxDepth with
  | some v => depthOf v
  | none => environmentDepth e >>= checkDepth

theorem build_eq (e : Environment) (s : Settings) :
    build e s = depthFor e s >>= fun depth =>
      pure ⟨depth, s.disabledTags.getD (environmentDisabled e),
        s.extensions.getD (environmentExtensions e)⟩ := by
  rw [build, depthFor]
  cases s.maxDepth <;> rfl

theorem build_eq_error_iff {err : ConfigError} :
    build e s = .error err ↔ SettingsFault e s err := by
  rw [build_eq, bind_eq_error_iff, depthFor]
  constructor
  · rintro (h | ⟨depth, -, h⟩)
    · split at h
      next v hv =>
        exact .given hv (depthOf_eq_error_iff.1 h)
      next hn =>
        exact .left hn (environmentDepth_eq_error_iff.1 h)
    · exact absurd h (by simp [Pure.pure, Except.pure])
  · rintro (⟨hv, h⟩ | ⟨hn, h⟩)
    · rw [hv]
      exact Or.inl (depthOf_eq_error_iff.2 h)
    · rw [hn]
      exact Or.inl (environmentDepth_eq_error_iff.2 h)

variable {base : Option Settings} {file : SettingsFile}

/-- A mapping tells its unknown keys apart. -/
theorem pairwise_not_same (file : SettingsFile) :
    file.unknownKeys.Pairwise fun a b => ¬ a.Same b := by
  unfold SettingsFile.unknownKeys SettingsFile.entries
  split
  next es h =>
    have hes : es.Pairwise fun a b => ¬ a.1.Same b.1 := h
    exact (List.pairwise_map.2 hes).filter _
  next => exact List.Pairwise.nil

end DocComment.Config
