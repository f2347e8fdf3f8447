import DocComment.Value
import Mathlib.Data.List.Pairwise
import Mathlib.Data.List.Sort
import Mathlib.Data.String.Basic
import Mathlib.Tactic.Ring

/-! The order of keys. Numbers are compared in units of a power of ten that both of them have; which
one it is does not matter. Keys that can be compared have one ascending arrangement, as long as
a mapping tells them apart. -/

namespace DocComment

namespace Decimal

variable {a b c d : Decimal} {m n : Int}

theorem units_eq (hm : m ≤ n) (hn : n ≤ d.exponent) :
    d.units m = d.units n * 10 ^ (n - m).toNat := by
  have hexponent : (d.exponent - m).toNat = (d.exponent - n).toNat + (n - m).toNat := by omega
  rw [units, units, hexponent]
  split_ifs <;> simp only [Nat.pow_eq, pow_add] <;> push_cast <;> ring

theorem le_iff (ha : m ≤ a.exponent) (hb : m ≤ b.exponent) :
    a.le b = true ↔ a.units m ≤ b.units m := by
  have hpos : (0 : Int) < 10 ^ (min a.exponent b.exponent - m).toNat :=
    Int.pow_pos (by decide)
  have hm : m ≤ min a.exponent b.exponent := by omega
  rw [units_eq hm (by omega), units_eq hm (by omega), Int.mul_le_mul_iff_of_pos_right hpos]
  exact decide_eq_true_iff

theorem le_total (a b : Decimal) : a.le b = true ∨ b.le a = true := by
  have ha : min a.exponent b.exponent ≤ a.exponent := by omega
  have hb : min a.exponent b.exponent ≤ b.exponent := by omega
  rw [le_iff ha hb, le_iff hb ha]
  exact Int.le_total _ _

theorem le_trans (hab : a.le b = true) (hbc : b.le c = true) : a.le c = true := by
  obtain ⟨m, ha, hb, hc⟩ : ∃ m, m ≤ a.exponent ∧ m ≤ b.exponent ∧ m ≤ c.exponent :=
    ⟨min a.exponent (min b.exponent c.exponent), by omega, by omega, by omega⟩
  rw [le_iff ha hb] at hab
  rw [le_iff hb hc] at hbc
  exact (le_iff ha hc).2 (hab.trans hbc)

end Decimal

namespace Key

variable {a b c : Key} {keys ls : List Key}

theorem le_iff : a.le b = true ↔ a.side < b.side ∨ a.side = b.side ∧
    a.number.le b.number = true ∧ (b.number.le a.number = true → a.letters ≤ b.letters) := by
  simp only [le, Bool.or_eq_true, Bool.and_eq_true, decide_eq_true_iff, Bool.not_eq_true',
    ← Bool.not_eq_true, imp_iff_not_or, and_assoc]

theorem le_total (a b : Key) : a.le b = true ∨ b.le a = true := by
  simp only [le_iff]
  rcases Int.lt_trichotomy a.side b.side with h | h | h
  · exact Or.inl (Or.inl h)
  · have hnumber := Decimal.le_total a.number b.number
    have hletters := String.le_total a.letters b.letters
    grind
  · exact Or.inr (Or.inl h)

theorem le_trans (hab : a.le b = true) (hbc : b.le c = true) : a.le c = true := by
  rw [le_iff] at *
  rcases hab with hab | ⟨hab, hnab, hlab⟩
  · rcases hbc with hbc | ⟨hbc, -⟩
    · exact Or.inl (hab.trans hbc)
    · exact Or.inl (hbc ▸ hab)
  · rcases hbc with hbc | ⟨hbc, hnbc, hlbc⟩
    · exact Or.inl (hab ▸ hbc)
    · refine Or.inr ⟨hab.trans hbc, Decimal.le_trans hnab hnbc, fun hca => ?_⟩
      exact String.le_trans (hlab (Decimal.le_trans hnbc hca)) (hlbc (Decimal.le_trans hca hnab))

instance : Std.Symm Comparable := ⟨fun _ _ h => ⟨h.2 ▸ h.1, h.2.symm⟩⟩

instance : Std.Symm fun a b : Key => ¬ a.Same b := ⟨fun _ _ h hs => h ⟨hs.1.symm, hs.2.2, hs.2.1⟩⟩

/-- Keys that can be compared and told apart are in order in one way only. -/
theorem eq_of_ascending {all : List Key} (hordered : all.Pairwise Comparable)
    (hdiffer : all.Pairwise fun a b => ¬ a.Same b) (hkeys : keys.Perm all) (hls : ls.Perm all)
    (hk : keys.Pairwise fun a b => a.le b = true) (hl : ls.Pairwise fun a b => a.le b = true) :
    keys = ls := by
  refine (hkeys.trans hls.symm).eq_of_pairwise (fun a b ha hb hab hba => ?_) hk hl
  have ha := hkeys.mem_iff.1 ha
  have hb := hls.mem_iff.1 hb
  by_contra hne
  exact hdiffer.forall ha hb hne ⟨(hordered.forall ha hb hne).2, hab, hba⟩

end Key

end DocComment
