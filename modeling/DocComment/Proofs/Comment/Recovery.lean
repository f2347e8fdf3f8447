import DocComment.Proofs.Comment.Decoration
import DocComment.Proofs.Regions
import DocComment.Reader
import Mathlib.Data.List.Basic

/-! What a comment is written from is recovered. Groups of lines that empty lines keep
apart are cut into the regions they were, so a comment that is laid out from a summary, a
description and tags is read as the document of just these. -/

namespace DocComment.Comment

open Text Regions

variable {g : List (List Char)} {gs : List (List (List Char))} {ls : List (List Char)}

/-! ### Groups -/

theorem filled_cons (hg : g ≠ []) (gs : List (List (List Char))) :
    filled (g :: gs) = g :: filled gs := by
  cases g with
  | nil => exact absurd rfl hg
  | cons l ls => rfl

theorem mem_filled : g ∈ filled gs ↔ g ∈ gs ∧ g ≠ [] := by
  simp [filled]

/-- Each line stands in a group or is empty. -/
theorem Spaced.mem (hs : Spaced gs ls) {l : List Char} (hl : l ∈ ls) :
    l = [] ∨ ∃ g ∈ gs, l ∈ g := by
  induction hs with
  | nil => exact absurd hl (by simp)
  | one g => exact Or.inr ⟨g, by simp, hl⟩
  | @more g h gs ls n hs ih =>
    rcases List.mem_append.1 hl with hl | hl
    · exact Or.inr ⟨g, by simp, hl⟩
    rcases List.mem_append.1 hl with hl | hl
    · exact Or.inl (List.eq_of_mem_replicate hl)
    rcases ih hl with he | ⟨k, hk, hm⟩
    · exact Or.inl he
    · exact Or.inr ⟨k, List.mem_cons_of_mem _ hk, hm⟩

theorem Spaced.head? (hs : Spaced gs ls) (hg : ∀ g ∈ gs, IsRegion g) : ls.head? ≠ some [] := by
  cases hs with
  | nil => simp
  | one => exact (hg ls (by simp)).head
  | @more g h gs ls n hs =>
    have hr := hg g (by simp)
    rw [List.head?_append_of_ne_nil _ hr.some_line]
    exact hr.head

theorem Spaced.ne_nil (hs : Spaced gs ls) (hg : ∀ g ∈ gs, IsRegion g) (hn : gs ≠ []) :
    ls ≠ [] := by
  cases hs with
  | nil => exact absurd rfl hn
  | one => exact (hg ls (by simp)).some_line
  | @more g h gs ls n hs => simp [(hg g (by simp)).some_line]

theorem Spaced.getLast? (hs : Spaced gs ls) (hg : ∀ g ∈ gs, IsRegion g) :
    ls.getLast? ≠ some [] := by
  induction hs with
  | nil => simp
  | one g => exact (hg g (by simp)).last
  | @more g h gs ls n hs ih =>
    obtain ⟨hg, hrest⟩ := List.forall_mem_cons.1 hg
    have hne := hs.ne_nil hrest (by simp)
    rw [← List.append_assoc, List.getLast?_append_of_ne_nil _ hne]
    exact ih hrest

/-- Behind the first group there is nothing when it is the only one, else two breaks or
more. -/
theorem Spaced.unlines_cons (hs : Spaced (g :: gs) ls) (hg : ∀ k ∈ g :: gs, IsRegion k) :
    ∃ ms r, Spaced gs ms ∧ unlines ls = unlines g ++ r ∧ r.dropWhile (· = '\n') = unlines ms ∧
      (gs = [] ∧ r = [] ∨ gs ≠ [] ∧ ∃ q, r = '\n' :: '\n' :: q) := by
  cases hs with
  | one => exact ⟨[], [], .nil, (List.append_nil _).symm, rfl, Or.inl ⟨rfl, rfl⟩⟩
  | @more _ h gs ms n hs =>
    obtain ⟨hg, hrest⟩ := List.forall_mem_cons.1 hg
    have hne := hs.ne_nil hrest (by simp)
    refine ⟨ms, List.replicate (n + 2) '\n' ++ unlines ms, hs, ?_, ?_, Or.inr ⟨by simp, _, rfl⟩⟩
    · rw [unlines_append hg.some_line (by simp), unlines_replicate _ hne]
      rfl
    · rw [List.dropWhile_append_of_pos (by simp)]
      cases ms with
      | nil => exact absurd rfl hne
      | cons l ms =>
        have hl : l ≠ [] := fun he => hs.head? hrest (by simp [he])
        have hn : '\n' ∉ l := by
          rcases hs.mem (List.mem_cons_self (a := l)) with he | ⟨k, hk, hm⟩
          · exact absurd he hl
          · exact (hrest k hk).noBreak l hm
        simpa using dropWhile_unlines hl hn ms []

/-! ### Regions -/

variable {summary description tags : List (List Char)}

theorem Parts.isRegion (hp : Parts summary description tags) :
    ∀ g ∈ filled [summary, description, tags], IsRegion g := by
  intro g hg
  obtain ⟨hm, hne⟩ := mem_filled.1 hg
  have noBreak : ∀ l ∈ summary ++ (description ++ tags), '\n' ∉ l :=
    fun l hl => (hp.line l hl).notMem_lf
  simp only [List.mem_cons, List.not_mem_nil, or_false] at hm
  rcases hm with rfl | rfl | rfl
  · refine ⟨hne, fun l hl => noBreak l (by simp [hl]), fun h => ?_, fun h => ?_⟩
    · exact hp.summary_filled [] (List.mem_of_mem_head? h) rfl
    · exact hp.summary_filled [] (List.mem_of_getLast? h) rfl
  · exact ⟨hne, fun l hl => noBreak l (by simp [hl]), hp.description_head, hp.description_last⟩
  · refine ⟨hne, fun l hl => noBreak l (by simp [hl]), fun h => ?_, hp.tags_last⟩
    exact absurd (hp.tags_head [] h) (by decide)

theorem Parts.startsTag_tags (hp : Parts summary description tags) (ht : tags ≠ []) :
    startsTag (unlines tags) = true := by
  cases tags with
  | nil => exact absurd rfl ht
  | cons l ls =>
    have hl := hp.tags_head l rfl
    have hne : l ≠ [] := by
      rintro rfl
      exact absurd hl (by decide)
    have hs := startsTag_unlines hne ls []
    rwa [List.append_nil, hl] at hs

/-- A group of lines none of which is a tag does not begin with one. -/
theorem startsTag_region (hr : IsRegion g) (ht : ∀ l ∈ g, startsTag l = false) (r : List Char) :
    startsTag (unlines g ++ r) = false := by
  cases g with
  | nil => exact absurd rfl hr.some_line
  | cons l ls =>
    have hl : l ≠ [] := fun he => hr.head (by simp [he])
    rw [startsTag_unlines hl]
    exact ht l (by simp)

theorem Parts.cut_tags (hp : Parts summary description tags) (hs : Spaced (filled [tags]) ls) :
    unlines ls = unlines tags := by
  by_cases ht : tags = []
  · subst ht
    cases hs
    rfl
  · rw [filled_cons ht] at hs
    cases hs
    rfl

theorem Parts.cut_description (hp : Parts summary description tags)
    (hs : Spaced (filled [description, tags]) ls) :
    unlessTag cutDescription (unlines ls) = (unlines description, unlines tags) := by
  by_cases hd : description = []
  · subst hd
    rw [hp.cut_tags hs, unlessTag]
    by_cases ht : tags = []
    · subst ht
      rfl
    · rw [if_pos (hp.startsTag_tags ht)]
      rfl
  · have hreg : ∀ g ∈ filled [description, tags], IsRegion g := by
      intro g hg
      obtain ⟨hm, hne⟩ := mem_filled.1 hg
      exact hp.isRegion g (mem_filled.2 ⟨List.mem_cons_of_mem _ hm, hne⟩)
    rw [filled_cons hd] at hs hreg
    have hno : ∀ l ∈ description, startsTag l = false := fun l hl => hp.noTag l (by simp [hl])
    have hr := hreg description (by simp)
    obtain ⟨ms, r, hms, hcut, hrest, hsep⟩ := hs.unlines_cons hreg
    rw [hp.cut_tags hms] at hrest
    rw [hcut, unlessTag, if_neg (by simp [startsTag_region hr hno]),
      cutDescription_unlines hd hp.description_last hr.noBreak hno, hrest]
    rcases hsep with ⟨_, hnil⟩ | ⟨hne, q, hq⟩
    · exact Or.inl hnil
    · refine Or.inr ⟨_, hq, ?_⟩
      have ht : tags ≠ [] := by
        rintro rfl
        exact hne rfl
      rw [hrest]
      exact hp.startsTag_tags ht

theorem Parts.cut_summary (hp : Parts summary description tags)
    (hs : Spaced (filled [summary, description, tags]) ls) :
    ∃ ms, Spaced (filled [description, tags]) ms ∧
      unlessTag (cutSummary false) (unlines ls) = (unlines summary, unlines ms) := by
  by_cases hsum : summary = []
  · -- without a summary there is no description either, so the tags begin the text
    subst hsum
    have hd : description = [] := hp.description_nil rfl
    subst hd
    have ht : tags ≠ [] := hp.some_filled.resolve_left (fun h => h rfl)
    refine ⟨ls, hs, ?_⟩
    rw [hp.cut_tags hs, unlessTag, if_pos (hp.startsTag_tags ht)]
    rfl
  · have hreg := hp.isRegion
    rw [filled_cons hsum] at hs hreg
    have hno : ∀ l ∈ summary, startsTag l = false := fun l hl => hp.noTag l (by simp [hl])
    have hr := hreg summary (by simp)
    obtain ⟨ms, r, hms, hcut, hrest, hsep⟩ := hs.unlines_cons hreg
    refine ⟨ms, hms, ?_⟩
    rw [hcut, unlessTag, if_neg (by simp [startsTag_region hr hno]),
      cutSummary_unlines hsum hp.summary_filled hr.noBreak hno hp.summary_period _ false, hrest]
    rcases hsep with ⟨_, hnil⟩ | ⟨_, hq⟩
    · exact Or.inl hnil
    · exact Or.inr hq

/-- Lines that are spaced out are cut into the regions they were. -/
theorem Parts.cut (hp : Parts summary description tags)
    (hs : Spaced (filled [summary, description, tags]) ls) :
    Regions.cut (unlines ls) = (unlines summary, unlines description, unlines tags) := by
  obtain ⟨ms, hms, hsum⟩ := hp.cut_summary hs
  simp only [Regions.cut, hsum, hp.cut_description hms]

/-- A comment that is laid out from parts has just these as its regions. -/
theorem Parts.regions (hp : Parts summary description tags)
    (hs : Spaced (filled [summary, description, tags]) ls) {comment : List Char}
    (hc : LaidOut ls comment) :
    Regions.of? (undecorate (String.ofList comment)) =
      some ⟨String.ofList (unlines summary), String.ofList (unlines description),
        String.ofList (unlines tags)⟩ := by
  have hline : ∀ l ∈ ls, IsLine l := by
    intro l hl
    rcases hs.mem hl with rfl | ⟨g, hg, hm⟩
    · exact ⟨by simp, by simp, by simp⟩
    · obtain ⟨hg, -⟩ := mem_filled.1 hg
      simp only [List.mem_cons, List.not_mem_nil, or_false] at hg
      apply hp.line
      rcases hg with rfl | rfl | rfl <;> simp [hm]
  have hbare := hc.bareLines hline (hs.head? hp.isRegion) (hs.getLast? hp.isRegion)
  have hgroups : filled [summary, description, tags] ≠ [] := by
    rcases hp.some_filled with h | h
    · exact List.ne_nil_of_mem (mem_filled.2 ⟨by simp, h⟩)
    · exact List.ne_nil_of_mem (mem_filled.2 ⟨by simp, h⟩)
  have hne : unlines ls ≠ [] := by
    cases ls with
    | nil => exact absurd rfl (hs.ne_nil hp.isRegion hgroups)
    | cons l ls =>
      obtain ⟨r, hr⟩ := unlines_eq_line_append l ls
      intro he
      rw [hr] at he
      exact hs.head? hp.isRegion (by simp [(List.append_eq_nil_iff.1 he).1])
  rw [undecorate, String.toList_ofList, hbare, Regions.of?, String.toList_ofList]
  cases he : unlines ls with
  | nil => exact absurd he hne
  | cons c r => simp only [← he, hp.cut hs]

end DocComment.Comment

namespace DocComment.Reader

open Comment Text

/-- However a comment is laid out from its parts, it is read as their document. -/
theorem read_laidOut (reader : Reader) {summary description tags ls : List (List Char)}
    {comment : List Char} (hp : Parts summary description tags)
    (hs : Spaced (filled [summary, description, tags]) ls) (hc : LaidOut ls comment) :
    reader.read (String.ofList comment) =
      { summary := String.ofList (unlines summary)
        description := reader.renderer.render (String.ofList (unlines description))
        tags := Occurrence.resolveAll reader.interpreters
          (Occurrence.scan reader.config.maxDepth (String.ofList (unlines tags))) } := by
  rw [read, hp.regions hs hc]
  rfl

/-- Lines that begin with a star or a slash, mixed line endings and empty lines between
and within the parts. -/
theorem read_mixed_layout :
    (builtin .plain ⟨2, [], []⟩).read
        "/**\r\n\t** Sums\n */ numbers.\t\r*\r\n*\n * First.\r*\r\t*\tLast\n*\n*@return int\n*/" =
      { summary := "* Sums\n/ numbers."
        description := Renderer.plain.render "First.\n\nLast"
        tags := Occurrence.resolveAll (builtin .plain ⟨2, [], []⟩).interpreters
          (Occurrence.scan 2 "@return int") } := by
  have hp : Parts ["* Sums".toList, "/ numbers.".toList]
      ["First.".toList, [], "Last".toList] ["@return int".toList] := by
    decide
  have gap (s : List Char) (h : IsGap s := by decide) : IsGap s := h
  have hl : LaidLines ["* Sums".toList, "/ numbers.".toList, [], [], "First.".toList, [],
      "Last".toList, [], "@return int".toList] _ :=
    .cons (.mk (gap ['\t']) (gap []) (gap []) .lf) <|
    .cons (.mk (gap [' ']) (gap []) (gap ['\t']) .cr) <|
    .cons (.mk (gap []) (gap []) (gap []) .crlf) <|
    .cons (.mk (gap []) (gap []) (gap []) .lf) <|
    .cons (.mk (gap [' ']) (gap [' ']) (gap []) .cr) <|
    .cons (.mk (gap []) (gap []) (gap []) .cr) <|
    .cons (.mk (gap ['\t']) (gap ['\t']) (gap []) .lf) <|
    .cons (.mk (gap []) (gap []) (gap []) .lf) <|
    .cons (.mk (gap []) (gap []) (gap []) .lf) .nil
  exact read_laidOut _ hp (.more 1 (.more 0 (.one _))) (.mk .crlf hl (gap []))

end DocComment.Reader
