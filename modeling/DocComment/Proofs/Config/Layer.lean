import DocComment.Proofs.Config.Check

/-! Settings that are loaded come from their layers. Where no check finds a fault, each field has
the value of the first layer that has one, and there is one outcome for each input: the layered
settings, or the report of the first fault. -/

namespace DocComment.Config

variable {e : Environment} {base : Option Settings} {file : SettingsFile} {b : Option Config}
  {c : Config}

/-! ### Settings that are loaded -/

theorem Built.unique {b' : Option Config} (h : Built e base b) (h' : Built e base b') : b = b' := by
  cases h with
  | none => cases h'; rfl
  | some h =>
    cases h' with
    | some h' => rw [Except.ok.inj (h.symm.trans h')]

theorem IsLayered.unique {α : Type} {inFile : Option Value} {toValue : α → Value}
    (hinj : Function.Injective toValue) {inBase inEnvironment : Option α} {default x y : α}
    (hx : IsLayered inFile toValue inBase inEnvironment default x)
    (hy : IsLayered inFile toValue inBase inEnvironment default y) : x = y := by
  rcases hx with hx | ⟨hx, rfl⟩ <;> rcases hy with hy | ⟨hy, rfl⟩
  · exact hinj (Option.some.inj (hx.symm.trans hy))
  · exact absurd (hx.symm.trans hy) (by simp)
  · exact absurd (hx.symm.trans hy) (by simp)
  · rfl

theorem Layered.unique {c' : Config} (h : Layered e b file c) (h' : Layered e b file c') :
    c = c' := by
  have htexts : Function.Injective fun ss : List String => Value.list (ss.map .text) :=
    fun ss ts hst => List.map_injective_iff.2 (fun _ _ => Value.text.inj) (Value.list.inj hst)
  have hdepth := h.maxDepth.unique (fun _ _ => Value.integer.inj) h'.maxDepth
  have hdisabled := h.disabledTags.unique htexts h'.disabledTags
  have hextensions := h.extensions.unique htexts h'.extensions
  cases c
  cases c'
  simp_all

/-- What a computation fails with is one fault. -/
theorem eq_of_error {α : Type} {x : Except ConfigError α} {fault : ConfigError → Prop}
    (hx : ∀ {err}, x = .error err ↔ fault err) {err err' : ConfigError} (h : fault err)
    (h' : fault err') : err = err' :=
  Except.error.inj ((hx.2 h).symm.trans (hx.2 h'))

theorem Fault.unique {k : Check} {err err' : LoadError} (h : Fault e base file k err)
    (h' : Fault e base file k err') : err = err' := by
  cases h with
  | base hs h =>
    cases h' with
    | base hs' h' =>
      obtain rfl := Option.some.inj (hs.symm.trans hs')
      exact congrArg _ (eq_of_error build_eq_error_iff h h')
  | missing h =>
    cases h' with
    | missing h' => rw [SettingsFile.missing.inj (h.symm.trans h')]
  | unreadable h =>
    cases h' with
    | unreadable h' =>
      obtain ⟨rfl, rfl⟩ := SettingsFile.unreadable.inj (h.symm.trans h')
      rfl
    | malformed h' => exact absurd (h.symm.trans h') (by simp)
  | malformed h =>
    cases h' with
    | unreadable h' => exact absurd (h.symm.trans h') (by simp)
    | malformed => rfl
  | noMapping h =>
    cases h' with
    | noMapping h' => rw [SettingsFile.holding.inj (h.symm.trans h')]
  | unknownKeys _ hkeys hordered hascending =>
    cases h' with
    | unknownKeys _ hkeys' _ hascending' =>
      rw [Key.eq_of_ascending hordered (pairwise_not_same file) hkeys hkeys' hascending hascending']
    | unordered hunordered => exact absurd hordered hunordered
  | unordered hunordered =>
    cases h' with
    | unknownKeys _ _ hordered => exact absurd hordered hunordered
    | unordered => rfl
  | disabledTags => cases h'; rfl
  | extensions => cases h'; rfl
  | environment _ h =>
    cases h' with
    | environment _ h' => exact congrArg _ (eq_of_error environmentDepth_eq_error_iff h h')
  | depth hv h =>
    cases h' with
    | depth hv' h' =>
      obtain rfl := Option.some.inj (hv.symm.trans hv')
      exact congrArg _ (eq_of_error depthOf_eq_error_iff h h')

end DocComment.Config
