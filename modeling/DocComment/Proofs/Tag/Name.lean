import DocComment.Proofs.Occurrence.Forms
import DocComment.Proofs.Occurrence.Pieces
import DocComment.Tag.Registry

/-! The names that a registry takes are the names that tags are read with. A registry looks at
a name from end to end and a reader takes the longest one that a text begins with; behind `@`
alone both come to the same, since a name that is read up to the end is the whole text. -/

namespace DocComment

namespace Occurrence

def bareOf (n : String) : Occurrence := ⟨n, none, .bare, ""⟩

theorem written_bareOf (n : String) : (bareOf n).written = '@' :: n.toList := by
  simp [bareOf, written, specializationText]

theorem wellFormed_bareOf {n : String} (hn : isName n = true) (allowed : Nat) :
    (bareOf n).WellFormed allowed where
  head := ⟨by simpa [bareOf] using hn, by simp [bareOf], by simp [bareOf]⟩
  body := rfl

theorem scan_at_name {n : String} (hn : isName n = true) (asked : Int) :
    scan asked ("@" ++ n) = [bareOf n] := by
  have hform : ∀ o ∈ [bareOf n], o.WellFormed (Nesting.allowance asked) := by
    simpa using wellFormed_bareOf hn _
  have hread : occurrences (Nesting.allowance asked) (writtenAll [bareOf n]) = [bareOf n] :=
    occurrences_writtenAll hform
  rw [writtenAll, written_bareOf] at hread
  rw [scan_eq, String.toList_append]
  exact hread

theorem isName_of_mem_scan {asked : Int} {text : String} {o : Occurrence}
    (h : o ∈ scan asked text) : isName o.name = true := by
  rw [scan_eq] at h
  obtain ⟨t, found, -, hfound, rfl⟩ := exists_tagAt?_of_mem h
  simpa using (isHead_of_tagAt? hfound).name

end Occurrence

namespace Registry

open Occurrence

variable {ι : Type} {r : Registry ι}

theorem exists_register_iff (hr : r.frozen = false) (i : ι) (n : String) :
    (∃ s, r.register (.text n) (.interpreter i) = .ok s) ↔ isName n = true := by
  cases hn : isName n <;> simp [register, hr, hn]

/-- An open registry takes a name exactly when it is read behind `@` with nothing else, and it
takes every name that is read anywhere. -/
theorem register_iff_scan (hr : r.frozen = false) (i : ι) (asked : Int) :
    (∀ n : String, (∃ s, r.register (.text n) (.interpreter i) = .ok s) ↔
      scan asked ("@" ++ n) = [⟨n, none, .bare, ""⟩]) ∧
    ∀ (text : String), ∀ o ∈ scan asked text,
      ∃ s, r.register (.text o.name) (.interpreter i) = .ok s := by
  refine ⟨fun n => ?_, fun text o ho => ?_⟩
  · rw [exists_register_iff hr]
    constructor
    · intro hn
      exact scan_at_name hn asked
    · intro hscan
      have hmem : bareOf n ∈ scan asked ("@" ++ n) := by
        rw [hscan]
        exact List.mem_singleton_self _
      exact isName_of_mem_scan hmem
  · rw [exists_register_iff hr]
    exact isName_of_mem_scan ho

/-- A break behind a name is skipped by the reader and refused by the registry, which tells the
name without it. -/
theorem register_iff_scan_break :
    ({} : Registry Unit).frozen = false ∧
      (∃ s, ({} : Registry Unit).register (.text "\\A\\b_c-1") (.interpreter ()) = .ok s) ∧
      scan 32 "@a\n" = [⟨"a", none, .bare, ""⟩] ∧
      ¬ ∃ s, ({} : Registry Unit).register (.text "a\n") (.interpreter ()) = .ok s := by
  obtain ⟨hname, -⟩ := register_iff_scan (r := ({} : Registry Unit)) rfl () 32
  exact ⟨rfl, (hname _).2 (by decide +kernel), by decide +kernel,
    fun h => absurd ((hname _).1 h) (by decide +kernel)⟩

end Registry

end DocComment
