import DocComment.Proofs.Comment.Recovery

/-! Every comment is made of parts. Its lines without decoration begin with those of the
summary, and what is left of them begins with those of the description and ends with those
of the tags, so the regions that the text is cut into are parts of a comment. -/

namespace DocComment.Regions

open Text

variable {ls ms : List (List Char)} {l m : List Char}

/-- The end of lines is a region like the lines when its first line is not empty. -/
theorem IsRegion.suffix (h : IsRegion ls) (hm : ms <:+ ls) (hne : ms ≠ [])
    (hh : ms.head? ≠ some []) : IsRegion ms := by
  obtain ⟨ks, rfl⟩ := hm
  exact ⟨hne, fun l hl => h.noBreak l (List.mem_append_right ks hl), hh,
    List.getLast?_append_of_ne_nil ks hne ▸ h.last⟩

theorem IsRegion.head_ne (h : IsRegion (l :: ls)) : l ≠ [] :=
  fun he => h.head (by simp [he])

/-- Breaks in front of lines are empty lines. -/
theorem exists_dropWhile_unlines (hs : ls ≠ []) (hl : ls.getLast? ≠ some [])
    (hn : ∀ l ∈ ls, '\n' ∉ l) :
    ∃ ms, ms <:+ ls ∧ ms.head? ≠ some [] ∧ (unlines ls).dropWhile (· = '\n') = unlines ms := by
  induction ls with
  | nil => exact absurd rfl hs
  | cons l ls ih =>
    obtain ⟨hn₁, hn'⟩ := List.forall_mem_cons.1 hn
    by_cases he : l = []
    · subst he
      cases ls with
      | nil => exact absurd rfl hl
      | cons m ms =>
        obtain ⟨ks, hks, hhead, hdrop⟩ := ih (by simp) (by simpa using hl) hn'
        refine ⟨ks, hks.trans (List.suffix_cons _ _), hhead, ?_⟩
        rw [unlines_cons [] (by simp)]
        simpa using hdrop
    · refine ⟨l :: ls, List.suffix_refl _, by simpa using he, ?_⟩
      have h := dropWhile_unlines he hn₁ ls []
      rwa [List.append_nil] at h

/-! ### The summary -/

/-- The first lines as a summary, and what is left of the lines behind it. -/
structure HasSummary (ls summary rest : List (List Char)) : Prop where
  first : summary <+: ls
  some_line : summary ≠ []
  filled : ∀ l ∈ summary, l ≠ []
  noTag : ∀ l ∈ summary, startsTag l = false
  period : ∀ l ∈ summary.dropLast, l.getLast? ≠ some '.'
  last : rest <:+ ls
  head : rest.head? ≠ some []

theorem HasSummary.line {rest : List (List Char)} (hl : l ≠ []) (ht : startsTag l = false)
    (hr : rest <:+ ls) (hh : rest.head? ≠ some []) : HasSummary (l :: ls) [l] rest where
  first := by simp
  some_line := by simp
  filled := by simpa using hl
  noTag := by simpa using ht
  period := by simp
  last := hr.trans (List.suffix_cons l ls)
  head := hh

theorem HasSummary.cons {summary rest : List (List Char)} (h : HasSummary ls summary rest)
    (hl : l ≠ []) (ht : startsTag l = false) (hp : l.getLast? ≠ some '.') :
    HasSummary (l :: ls) (l :: summary) rest where
  first := List.cons_prefix_cons.2 ⟨rfl, h.first⟩
  some_line := by simp
  filled := List.forall_mem_cons.2 ⟨hl, h.filled⟩
  noTag := List.forall_mem_cons.2 ⟨ht, h.noTag⟩
  period := by
    rw [List.dropLast_cons_of_ne_nil h.some_line]
    exact List.forall_mem_cons.2 ⟨hp, h.period⟩
  last := h.last.trans (List.suffix_cons l ls)
  head := h.head

theorem exists_hasSummary (h : IsRegion ls) (ht : startsTag (unlines ls) = false)
    (period : Bool) :
    ∃ summary rest, cutSummary period (unlines ls) = (unlines summary, unlines rest) ∧
      HasSummary ls summary rest := by
  induction ls generalizing period with
  | nil => exact absurd rfl h.some_line
  | cons l ls ih =>
    have hl := h.head_ne
    obtain ⟨hn, hn'⟩ := List.forall_mem_cons.1 h.noBreak
    have htl : startsTag l = false := by
      have hs := startsTag_unlines hl ls []
      rwa [List.append_nil, ht, eq_comm] at hs
    cases ls with
    | nil =>
      refine ⟨[l], [], ?_, .line hl htl List.nil_suffix (by simp)⟩
      simpa [cutSummary, unlines] using cutSummary_line hl hn [] period
    | cons m ms =>
      have hlast : (m :: ms).getLast? ≠ some [] := by simpa using h.last
      obtain ⟨rest, hrest, hhead, hdrop⟩ := exists_dropWhile_unlines (by simp) hlast hn'
      rw [unlines_cons l (by simp), cutSummary_line hl hn, cutSummary, if_pos rfl]
      dsimp only
      split_ifs with hend
      · exact ⟨[l], rest, by simp [hdrop, unlines], .line hl htl hrest hhead⟩
      · simp only [Bool.or_eq_true, not_or, Bool.not_eq_true] at hend
        obtain ⟨⟨htag, hperiod⟩, hbreak⟩ := hend
        -- a single break follows, so the next line is not empty
        have hm : m ≠ [] := by
          rintro rfl
          cases ms with
          | nil => exact hlast rfl
          | cons k ks => simp [unlines] at hbreak
        have hregion := h.suffix (List.suffix_cons l (m :: ms)) (by simp) (by simpa using hm)
        obtain ⟨summary, q, hcut, hq⟩ := ih hregion (startsTag_eq_false htag) false
        refine ⟨l :: summary, q, ?_, hq.cons hl htl (by simpa using hperiod)⟩
        rw [hcut, unlines_cons l hq.some_line]

/-! ### The description and the tags -/

/-- The first lines as a description, and the tags behind it. -/
structure HasDescription (ls description tags : List (List Char)) : Prop where
  first : description <+: ls
  noTag : ∀ l ∈ description, startsTag l = false
  description_last : description.getLast? ≠ some []
  last : tags <:+ ls
  tags_head : ∀ l ∈ tags.head?, startsTag l = true

theorem HasDescription.line {tags : List (List Char)} (hl : l ≠ []) (ht : startsTag l = false)
    (hr : tags <:+ ls) (hh : ∀ l ∈ tags.head?, startsTag l = true) :
    HasDescription (l :: ls) [l] tags where
  first := by simp
  noTag := by simpa using ht
  description_last := by simpa using hl
  last := hr.trans (List.suffix_cons l ls)
  tags_head := hh

theorem HasDescription.cons {description tags : List (List Char)}
    (h : HasDescription ls description tags) (hd : description ≠ []) (ht : startsTag l = false) :
    HasDescription (l :: ls) (l :: description) tags where
  first := List.cons_prefix_cons.2 ⟨rfl, h.first⟩
  noTag := List.forall_mem_cons.2 ⟨ht, h.noTag⟩
  description_last := by
    cases description with
    | nil => exact absurd rfl hd
    | cons k ks => simpa using h.description_last
  last := h.last.trans (List.suffix_cons l ls)
  tags_head := h.tags_head

/-- Lines that begin with a tag have a first line that does. -/
theorem startsTag_head? (h : startsTag (unlines ls) = true) (hh : ls.head? ≠ some []) :
    ∀ l ∈ ls.head?, startsTag l = true := by
  cases ls with
  | nil => simp
  | cons l ls =>
    have hl : l ≠ [] := fun he => hh (by simp [he])
    have hs := startsTag_unlines hl ls []
    rw [List.append_nil, h] at hs
    simpa using hs.symm

theorem exists_hasDescription (hs : ls ≠ []) (hl : ls.getLast? ≠ some [])
    (hn : ∀ l ∈ ls, '\n' ∉ l) (ht : startsTag ((unlines ls).dropWhile (· = '\n')) = false) :
    ∃ description tags, cutDescription (unlines ls) = (unlines description, unlines tags) ∧
      description ≠ [] ∧ HasDescription ls description tags := by
  induction ls with
  | nil => exact absurd rfl hs
  | cons l ls ih =>
    obtain ⟨hn₁, hn'⟩ := List.forall_mem_cons.1 hn
    have htl : startsTag l = false := by
      by_cases he : l = []
      · subst he
        rfl
      · rw [← startsTag_unlines he ls [], List.append_nil]
        exact startsTag_eq_false ht
    cases ls with
    | nil =>
      refine ⟨[l], [], ?_, by simp, .line (by simpa using hl) htl List.nil_suffix (by simp)⟩
      simpa [cutDescription, unlines] using cutDescription_line hn₁ []
    | cons m ms =>
      have hlast : (m :: ms).getLast? ≠ some [] := by simpa using hl
      obtain ⟨rest, hrest, hhead, hdrop⟩ := exists_dropWhile_unlines (by simp) hlast hn'
      rw [unlines_cons l (by simp)] at ht
      rw [unlines_cons l (by simp), cutDescription_line hn₁, cutDescription]
      split_ifs with hend
      · have htag : startsTag (unlines rest) = true := by simpa [hdrop] using hend
        -- an empty line is passed over on the way to the tag, so it ends no description
        have hl : l ≠ [] := by
          rintro rfl
          simp [hdrop, htag] at ht
        exact ⟨[l], rest, by simp [hdrop, unlines], by simp,
          .line hl htl hrest (startsTag_head? htag hhead)⟩
      · obtain ⟨description, tags, hcut, hd, h⟩ := ih (by simp) hlast hn' (by simpa using hend)
        refine ⟨l :: description, tags, ?_, by simp, h.cons hd htl⟩
        rw [hcut, unlines_cons l hd]

/-- What is left behind a summary is a description and tags, either of which may be missing. -/
theorem exists_hasDescription_of_rest (hl : ls.getLast? ≠ some []) (hh : ls.head? ≠ some [])
    (hn : ∀ l ∈ ls, '\n' ∉ l) :
    ∃ description tags,
      unlessTag cutDescription (unlines ls) = (unlines description, unlines tags) ∧
        HasDescription ls description tags := by
  cases ls with
  | nil => exact ⟨[], [], rfl, by simp, by simp, by simp, by simp, by simp⟩
  | cons l ls =>
    rw [unlessTag]
    split_ifs with ht
    · exact ⟨[], l :: ls, rfl, by simp, by simp, by simp, List.suffix_refl _,
        startsTag_head? ht hh⟩
    · have hl₁ : l ≠ [] := fun he => hh (by simp [he])
      have hdrop := dropWhile_unlines hl₁ (hn l (by simp)) ls []
      rw [List.append_nil] at hdrop
      obtain ⟨description, tags, hcut, -, h⟩ :=
        exists_hasDescription (by simp) hl hn (by simpa [hdrop] using ht)
      exact ⟨description, tags, hcut, h⟩

end DocComment.Regions

namespace DocComment.Comment

open Text Regions

variable {ls : List (List Char)}

/-- The last of the last lines is the last of all. -/
theorem getLast?_of_suffix {ms : List (List Char)} (h : ls.getLast? ≠ some []) (hm : ms <:+ ls) :
    ms.getLast? ≠ some [] := by
  obtain ⟨ks, rfl⟩ := hm
  cases ms with
  | nil => simp
  | cons m ms => rwa [List.getLast?_append_of_ne_nil ks (by simp)] at h

theorem head?_of_begins {ms : List (List Char)} (h : ls.head? ≠ some []) (hm : ms <+: ls) :
    ms.head? ≠ some [] := by
  obtain ⟨ks, rfl⟩ := hm
  cases ms with
  | nil => simp
  | cons m ms => simpa using h

/-- Lines are cut into regions that are parts of a comment. -/
theorem exists_parts (h : IsRegion ls) (hl : ∀ l ∈ ls, IsLine l) :
    ∃ summary description tags, Parts summary description tags ∧
      Regions.cut (unlines ls) = (unlines summary, unlines description, unlines tags) := by
  cases ht : startsTag (unlines ls) with
  | true =>
    refine ⟨[], [], ls, ?_, by simp [Regions.cut, unlessTag, ht, unlines]⟩
    exact {
      line := by simpa using hl
      noTag := by simp
      summary_filled := by simp
      summary_period := by simp
      description_head := by simp
      description_last := by simp
      description_nil := by simp
      tags_head := startsTag_head? ht h.head
      tags_last := h.last
      some_filled := Or.inr h.some_line }
  | false =>
    obtain ⟨summary, rest, hsum, hs⟩ := exists_hasSummary h ht false
    have hlast := getLast?_of_suffix h.last hs.last
    obtain ⟨description, tags, hdesc, hd⟩ := exists_hasDescription_of_rest hlast hs.head
      fun l hm => h.noBreak l (hs.last.subset hm)
    refine ⟨summary, description, tags, ?_, by simp [Regions.cut, unlessTag, ht, hsum, ← hdesc]⟩
    exact {
      line := by
        intro l hm
        simp only [List.mem_append] at hm
        rcases hm with hm | hm | hm
        · exact hl l (hs.first.subset hm)
        · exact hl l (hs.last.subset (hd.first.subset hm))
        · exact hl l (hs.last.subset (hd.last.subset hm))
      noTag := fun l hm => (List.mem_append.1 hm).elim (hs.noTag l) (hd.noTag l)
      summary_filled := hs.filled
      summary_period := hs.period
      description_head := head?_of_begins hs.head hd.first
      description_last := hd.description_last
      description_nil := fun he => absurd he hs.some_line
      tags_head := hd.tags_head
      tags_last := getLast?_of_suffix hlast hd.last
      some_filled := Or.inl hs.some_line }

/-- Every comment of which anything is left without decoration is made of parts. -/
theorem exists_parts_of_comment {comment : String} (h : undecorate comment ≠ "") :
    ∃ summary description tags, Parts summary description tags ∧
      Regions.of? (undecorate comment) =
        some ⟨String.ofList (unlines summary), String.ofList (unlines description),
          String.ofList (unlines tags)⟩ := by
  have hne : bareLines comment.toList ≠ [] := by
    intro he
    exact h (by rw [undecorate, he]; rfl)
  have hline : ∀ l ∈ bareLines comment.toList, IsLine l := fun l hl => isLine_of_mem_bareLines hl
  have hregion : IsRegion (bareLines comment.toList) :=
    ⟨hne, fun l hl => (hline l hl).notMem_lf, head?_bareLines _, getLast?_bareLines _⟩
  obtain ⟨summary, description, tags, hp, hcut⟩ := exists_parts hregion hline
  refine ⟨summary, description, tags, hp, ?_⟩
  rw [of?_eq h, undecorate, String.toList_ofList, hcut]

end DocComment.Comment
