import DocComment.Proofs.Occurrence.Pieces
import DocComment.Proofs.Regions

/-! The tags region of a text holds all its occurrences. Lines that do not begin with `@`
hold none, so reading may begin at the first line that does, which is where the region is
cut. -/

namespace DocComment.Occurrence

open Text Regions

variable {allowed : Nat} {s : List Char}

theorem tagAt?_of_startsTag (h : startsTag s = false) : tagAt? allowed s = none := by
  cases s with
  | nil => rfl
  | cons c s =>
    have hc : c ≠ '@' := by simpa [startsTag] using h
    simp [tagAt?, tag?, hc]

/-- Where a line is passed over, reading goes on as it does at the next tag. -/
theorem occurrences_behindBreak (allowed : Nat) (s : List Char) :
    occurrences allowed (behindBreak s) = occurrences allowed (cutLine s).2 := by
  induction s with
  | nil => rfl
  | cons c s ih =>
    by_cases hc : c = '\n'
    · subst hc
      rw [behindBreak_break, fromTag, cutLine, if_pos rfl]
      split_ifs with hs
      · rfl
      · have hnone : tagAt? allowed s = none := tagAt?_of_startsTag (by simpa using hs)
        rw [ih, occurrences_of_none hnone]
    · rw [behindBreak_cons hc, cutLine, if_neg hc]
      exact ih

/-- Nothing is read before the first line that begins with a tag. -/
theorem occurrences_fromTag (allowed : Nat) (s : List Char) :
    occurrences allowed (fromTag s) = occurrences allowed s := by
  rw [fromTag]
  split_ifs with hs
  · rfl
  · have hnone : tagAt? allowed s = none := tagAt?_of_startsTag (by simpa using hs)
    rw [occurrences_behindBreak, occurrences_of_none hnone]

/-- A text that is not empty has regions, and its occurrences are those of its tags region. -/
theorem scan_tagsRegion (asked : Int) {text : String} (h : text ≠ "") :
    ∃ r, Regions.of? text = some r ∧ scan asked r.tags = scan asked text := by
  refine ⟨_, of?_eq h, ?_⟩
  rw [scan_eq, scan_eq, String.toList_ofList, tags_cut, occurrences_fromTag]

/-- Empty lines in front, periods, an `@` inside a line and one behind a space. -/
theorem scan_tagsRegion_mixed :
    ∃ r, Regions.of? "\n\nSum. of @a\n @b.\n\n\n.\n\n@c d\n\n@e" = some r ∧
      scan 1 r.tags = [⟨"c", none, .description, "d"⟩, ⟨"e", none, .bare, ""⟩] := by
  have h : "\n\nSum. of @a\n @b.\n\n\n.\n\n@c d\n\n@e" ≠ "" := by decide
  obtain ⟨r, hr, hs⟩ := scan_tagsRegion 1 h
  exact ⟨r, hr, hs.trans (by decide +kernel)⟩

end DocComment.Occurrence
