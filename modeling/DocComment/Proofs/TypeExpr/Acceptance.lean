import DocComment.Proofs.TypeExpr.Completeness
import DocComment.Proofs.TypeExpr.Memory

/-! A reader of type expressions accepts exactly the texts of its grammar whose nesting
is within the bound. Soundness and completeness of the rules meet here with the fact
that keeping answers changes none. What a reader remembers of a text is put away before the next
one, so each answer of a session is the one that the rules give for its text alone, and after each
text the reader is at the outermost level with the bound that it began with. -/

namespace DocComment.TypeExpr

open Grammar

theorem derive?_eq_some_iff {asked : Int} {text : String} {t : TypeExpr} :
    derive? asked text = some t ↔
      ∃ n, n ≤ Nesting.allowance asked ∧ Expression n text.toList t := by
  constructor
  · intro h
    obtain ⟨⟨u, r⟩, hw, rfl⟩ := Option.map_eq_some_iff.1 h
    exact (whole_eq_some_iff.1 hw).2
  · intro h
    exact Option.map_eq_some_iff.2 ⟨(t, []), whole_eq_some_iff.2 ⟨rfl, h⟩, rfl⟩

theorem parse?_eq_some_iff {asked : Int} {text : String} {t : TypeExpr} :
    parse? asked text = some t ↔
      ∃ n, n ≤ Nesting.allowance asked ∧ Expression n text.toList t := by
  rw [parse?_eq_derive?, derive?_eq_some_iff]

/-- A text is read as a type when it derives that type and never has more parentheses and
angle brackets open at once than the bound allows. -/
theorem parse?_iff_derives (asked : Int) (text : String) (t : TypeExpr) :
    parse? asked text = some t ↔
      (∃ n, Expression n text.toList t) ∧
        (mostOpen 0 text.toList : Int) ≤ max 0 (min asked 62) := by
  rw [parse?_eq_some_iff, ← Nesting.le_allowance_iff]
  constructor
  · rintro ⟨n, hle, h⟩
    exact ⟨⟨n, h⟩, h.nesting_eq ▸ hle⟩
  · rintro ⟨⟨n, h⟩, hle⟩
    exact ⟨n, h.nesting_eq ▸ hle, h⟩

/-! ### Sessions -/

namespace Reader

/-- After a text the reader is back at the outermost level, whether or not a type was found. -/
theorem level_read (reader : Reader) (s : List Char) : (reader.read s).2.memory.level = 0 := by
  obtain ⟨-, hlevel, -⟩ := whole_simulates reader.bound.toNat s {} rfl (Memory.correct_empty _ _)
  exact hlevel

theorem bound_read (reader : Reader) (s : List Char) : (reader.read s).2.bound = reader.bound := rfl

theorem readAll_cons (reader : Reader) (s : List Char) (ss : List (List Char)) :
    reader.readAll (s :: ss) =
      ((reader.read s).1 :: ((reader.read s).2.readAll ss).1, ((reader.read s).2.readAll ss).2) :=
  rfl

theorem results_readAll (reader : Reader) (ss : List (List Char)) :
    (reader.readAll ss).1 =
      ss.map fun s => (whole .direct reader.bound.toNat s).run.map Prod.fst := by
  induction ss generalizing reader with
  | nil => rfl
  | cons s ss ih => rw [readAll_cons, ih, read_eq, bound_read, List.map_cons]

theorem bound_readAll (reader : Reader) (ss : List (List Char)) :
    (reader.readAll ss).2.bound = reader.bound := by
  induction ss generalizing reader with
  | nil => rfl
  | cons s ss ih => rw [readAll_cons, ih, bound_read]

theorem level_readAll (reader : Reader) (h : reader.memory.level = 0) (ss : List (List Char)) :
    (reader.readAll ss).2.memory.level = 0 := by
  induction ss generalizing reader with
  | nil => exact h
  | cons s ss ih =>
    rw [readAll_cons]
    exact ih _ (level_read reader s)

/-- A session gives for each text what the rules give for it without keeping any answer, and
after any number of its texts the reader is at level zero and has its bound. -/
theorem readAll_eq_derive? (asked : Int) (texts : List String) :
    ((new asked).readAll (texts.map String.toList)).1 = texts.map (derive? asked) ∧
      ∀ n, let reader := ((new asked).readAll ((texts.take n).map String.toList)).2
        reader.memory.level = 0 ∧ reader.bound = Nesting.bounded asked := by
  refine ⟨?_, fun n => ⟨level_readAll _ rfl _, bound_readAll _ _⟩⟩
  rw [results_readAll, List.map_map]
  rfl

end Reader

end DocComment.TypeExpr
