/-! Outcomes of computations that may fail, one after the other, and of checks that are made in an
order. A computation reports checks when it fails with the first fault of these and else finds
none; two computations in a row report the checks of both, so that the order of all of them is
put together from the single steps. -/

namespace DocComment

variable {ε ε' κ α β : Type}

section Except

variable {x : Except ε α} {f : α → Except ε β} {g : ε → ε'}

theorem bind_eq_ok_iff {b : β} : x >>= f = .ok b ↔ ∃ a, x = .ok a ∧ f a = .ok b := by
  cases x <;> simp [bind, Except.bind]

theorem bind_eq_error_iff {e : ε} :
    x >>= f = .error e ↔ x = .error e ∨ ∃ a, x = .ok a ∧ f a = .error e := by
  cases x <;> simp [bind, Except.bind]

end Except

/-! ### Checks in an order -/

/-- The error of the first check of a list that finds a fault. -/
def IsFirst (fault : κ → ε → Prop) (ks : List κ) (err : ε) : Prop :=
  ∃ before k behind, ks = before ++ k :: behind ∧ fault k err ∧
    ∀ j ∈ before, ∀ other, ¬ fault j other

/-- A computation that fails with the first fault of some checks, and only where there is one. -/
structure Reports (fault : κ → ε → Prop) (ks : List κ) (x : Except ε α) : Prop where
  ok : ∀ a, x = .ok a → ∀ k ∈ ks, ∀ err, ¬ fault k err
  error : ∀ err, x = .error err → IsFirst fault ks err

variable {fault : κ → ε → Prop} {ks ls : List κ} {k : κ}

theorem IsFirst.append_right {err : ε} (h : IsFirst fault ks err) (ls : List κ) :
    IsFirst fault (ks ++ ls) err := by
  obtain ⟨before, k, behind, rfl, hk, hbefore⟩ := h
  exact ⟨before, k, behind ++ ls, by simp, hk, hbefore⟩

theorem IsFirst.append_left {err : ε} (h : IsFirst fault ls err)
    (hks : ∀ k ∈ ks, ∀ other, ¬ fault k other) : IsFirst fault (ks ++ ls) err := by
  obtain ⟨before, k, behind, rfl, hk, hbefore⟩ := h
  exact ⟨ks ++ before, k, behind, by simp, hk, List.forall_mem_append.2 ⟨hks, hbefore⟩⟩

theorem IsFirst.cons {err : ε} (h : IsFirst fault ks err) (hk : ∀ other, ¬ fault k other) :
    IsFirst fault (k :: ks) err :=
  IsFirst.append_left h (List.forall_mem_singleton.2 hk)

/-- Where the check in front finds a fault, that one is the first. -/
theorem IsFirst.head {err err' : ε} (h : IsFirst fault (k :: ks) err) (hk : fault k err') :
    fault k err := by
  obtain ⟨before, j, behind, hks, hj, hbefore⟩ := h
  cases before with
  | nil => rwa [(List.cons.inj hks).1]
  | cons i before =>
    obtain ⟨rfl, -⟩ := List.cons.inj hks
    exact absurd hk (hbefore k (by simp) err')

/-- No other fault is the first one. -/
theorem IsFirst.unique {err err' : ε} (h : IsFirst fault ks err) (h' : IsFirst fault ks err')
    (hone : ∀ k e e', fault k e → fault k e' → e = e') : err = err' := by
  obtain ⟨before, k, behind, rfl, hk, hbefore⟩ := h
  obtain ⟨before', k', behind', hks, hk', hbefore'⟩ := h'
  rcases List.append_eq_append_iff.1 hks with ⟨as, rfl, has⟩ | ⟨as, rfl, has⟩
  · cases as with
    | nil =>
      obtain ⟨rfl, -⟩ := List.cons.inj has
      exact hone _ _ _ hk hk'
    | cons j as =>
      obtain ⟨rfl, -⟩ := List.cons.inj has
      exact absurd hk (hbefore' k (by simp) err)
  · cases as with
    | nil =>
      obtain ⟨rfl, -⟩ := List.cons.inj has
      exact hone _ _ _ hk hk'
    | cons j as =>
      obtain ⟨rfl, -⟩ := List.cons.inj has
      exact absurd hk' (hbefore k' (by simp) err')

namespace Reports

variable {x : Except ε α} {f : α → Except ε β}

/-- A step that makes one check. -/
theorem one (h : ∀ err, x = .error err ↔ fault k err) : Reports fault [k] x where
  ok a hx := List.forall_mem_singleton.2 fun err hk => by
    have := (h err).2 hk
    rw [hx] at this
    exact absurd this (by simp)
  error err hx := ⟨[], k, [], rfl, (h err).1 hx, by simp⟩

theorem pure (a : α) : Reports fault [] (pure a : Except ε α) where
  ok _ _ := by simp
  error err h := absurd h (by simp [Pure.pure, Except.pure])

/-- A step that fails with the first of its checks. -/
theorem raise {err : ε} (hk : fault k err) (ks : List κ) :
    Reports fault (k :: ks) (.error err : Except ε α) where
  ok _ h := absurd h (by simp)
  error _ h := ⟨[], k, ks, rfl, Except.error.inj h ▸ hk, by simp⟩

theorem bind (hx : Reports fault ks x) (hf : ∀ a, x = .ok a → Reports fault ls (f a)) :
    Reports fault (ks ++ ls) (x >>= f) where
  ok b h := by
    obtain ⟨a, ha, hb⟩ := bind_eq_ok_iff.1 h
    exact List.forall_mem_append.2 ⟨hx.ok a ha, (hf a ha).ok b hb⟩
  error err h := by
    rcases bind_eq_error_iff.1 h with h | ⟨a, ha, hb⟩
    · exact (hx.error err h).append_right ls
    · exact ((hf a ha).error err hb).append_left (hx.ok a ha)

/-- A check that finds nothing may stand in front. -/
theorem cons (hk : ∀ err, ¬ fault k err) (hx : Reports fault ks x) :
    Reports fault (k :: ks) x where
  ok a ha := List.forall_mem_cons.2 ⟨hk, hx.ok a ha⟩
  error err h := (hx.error err h).cons hk

end Reports

end DocComment
