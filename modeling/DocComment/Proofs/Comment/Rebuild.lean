import DocComment.Comment.Written
import DocComment.Proofs.Comment.Parts

/-! Writing the regions of a comment as a comment again changes nothing. Parts of a comment
are tidy regions, the written comment is one of the ways to lay the parts out, and a comment
that is laid out from parts is read as their document. -/

namespace DocComment.Comment

open Text Regions

variable {ls ms summary description tags : List (List Char)}

/-! ### The written comment -/

theorem unlines_concat (ls : List (List Char)) (l : List Char) :
    unlines (ls ++ [l]) = ls.flatMap (· ++ ['\n']) ++ l := by
  induction ls with
  | nil => rfl
  | cons k ls ih =>
    rw [List.cons_append, unlines_cons k (by simp), ih]
    simp

theorem LaidLines.append {s r : List Char} (hs : LaidLines ls s) (hr : LaidLines ms r) :
    LaidLines (ls ++ ms) (s ++ r) := by
  induction hs with
  | nil => exact hr
  | cons h _ ih =>
    rw [List.append_assoc]
    exact .cons h ih

theorem isGap_nil : IsGap [] := by decide

theorem isGap_space : IsGap [' '] := by decide

theorem laidLine_starred (l : List Char) : LaidLine l (starred l ++ ['\n']) :=
  .mk isGap_space isGap_space isGap_nil .lf

theorem laidLines_starred (ls : List (List Char)) :
    LaidLines ls ((ls.map starred).flatMap (· ++ ['\n'])) := by
  induction ls with
  | nil => exact .nil
  | cons l ls ih => exact .cons (laidLine_starred l) ih

/-- The groups are spaced out by one empty line between each two. -/
theorem exists_laidLines_starredGroups (gs : List (List (List Char))) :
    ∃ ls, Spaced gs ls ∧ LaidLines ls ((starredGroups gs).flatMap (· ++ ['\n'])) := by
  induction gs with
  | nil => exact ⟨[], .nil, .nil⟩
  | cons g gs ih =>
    obtain ⟨ls, hs, hl⟩ := ih
    cases gs with
    | nil => exact ⟨g, .one g, laidLines_starred g⟩
    | cons h gs =>
      have hbare : LaidLine [] ([' ', '*'] ++ ['\n']) := .mk isGap_space isGap_nil isGap_nil .lf
      refine ⟨_, .more 0 hs, ?_⟩
      rw [starredGroups.eq_3 _ _ (by simp), List.flatMap_append]
      exact (laidLines_starred g).append (.cons hbare hl)

theorem exists_laidOut_decorate (gs : List (List (List Char))) :
    ∃ ls, Spaced gs ls ∧ LaidOut ls (decorate gs) := by
  obtain ⟨ls, hs, hl⟩ := exists_laidLines_starredGroups gs
  refine ⟨ls, hs, ?_⟩
  rw [decorate, unlines_cons _ (by simp), unlines_concat]
  exact .mk .lf hl isGap_space

/-! ### Parts as regions -/

/-- Groups of lines as they are found again in a region. -/
theorem regionLines_unlines (h : ls.head? ≠ some []) (hn : ∀ l ∈ ls, '\n' ∉ l) :
    regionLines (unlines ls) = ls := by
  cases ls with
  | nil => rfl
  | cons l ls =>
    obtain ⟨r, hr⟩ := unlines_eq_line_append l ls
    have hl : l ≠ [] := fun he => h (by simp [he])
    rw [regionLines, if_neg (by simp [hr, hl]), lines_unlines (by simp) hn]

def regionsOf (summary description tags : List (List Char)) : Regions :=
  ⟨String.ofList (unlines summary), String.ofList (unlines description),
    String.ofList (unlines tags)⟩

theorem Parts.heads (hp : Parts summary description tags) :
    ∀ g ∈ [summary, description, tags], g.head? ≠ some [] := by
  intro g hg h
  cases g with
  | nil => exact absurd h (by simp)
  | cons l ls => exact (hp.isRegion _ (mem_filled.2 ⟨hg, by simp⟩)).head h

theorem Parts.lasts (hp : Parts summary description tags) :
    ∀ g ∈ [summary, description, tags], g.getLast? ≠ some [] := by
  intro g hg h
  cases g with
  | nil => exact absurd h (by simp)
  | cons l ls => exact (hp.isRegion _ (mem_filled.2 ⟨hg, by simp⟩)).last h

theorem Parts.regionLines (hp : Parts summary description tags) :
    ∀ g ∈ [summary, description, tags], regionLines (unlines g) = g := by
  intro g hg
  refine regionLines_unlines (hp.heads g hg) fun l hl => ?_
  simp only [List.mem_cons, List.not_mem_nil, or_false] at hg
  refine (hp.line l ?_).notMem_lf
  rcases hg with rfl | rfl | rfl <;> simp [hl]

/-- What is written from the regions of parts is laid out from the parts. -/
theorem Parts.of?_ofRegions (hp : Parts summary description tags) :
    Regions.of? (undecorate (ofRegions (regionsOf summary description tags))) =
      some (regionsOf summary description tags) := by
  have hlines := hp.regionLines
  simp only [List.mem_cons, List.not_mem_nil, or_false, forall_eq_or_imp, forall_eq] at hlines
  obtain ⟨hs, hd, ht⟩ := hlines
  obtain ⟨ls, hspaced, hout⟩ := exists_laidOut_decorate (filled [summary, description, tags])
  have hr := hp.regions hspaced hout
  simpa only [ofRegions, regionsOf, String.toList_ofList, hs, hd, ht] using hr

/-! ### Tidy regions -/

theorem startsTag_iff {l : List Char} : startsTag l = true ↔ l.head? = some '@' := by
  cases l with
  | nil => simp [startsTag]
  | cons c l => simp [startsTag]

theorem noTag_iff {l : List Char} : startsTag l = false ↔ l.head? ≠ some '@' := by
  rw [← Bool.not_eq_true, startsTag_iff]

theorem IsLine.ends {l : List Char} (h : IsLine l) {c : Char}
    (hc : c ∈ l.head? ∨ c ∈ l.getLast?) : c ≠ ' ' ∧ c ≠ '\t' ∧ c ≠ '\n' := by
  have hgap : isGap c = false := hc.elim (h.head c) (h.last c)
  have hmem : c ∈ l := hc.elim List.mem_of_mem_head? List.mem_of_getLast?
  refine ⟨?_, ?_, (h.noBreak c hmem).2⟩ <;> rintro rfl <;> exact absurd hgap (by decide)

/-- The first character of lines is that of the first line, the last that of the last. -/
theorem exists_ends_unlines (hh : ls.head? ≠ some []) (hl : ls.getLast? ≠ some []) {c : Char}
    (hc : c ∈ (unlines ls).head? ∨ c ∈ (unlines ls).getLast?) :
    ∃ l ∈ ls, c ∈ l.head? ∨ c ∈ l.getLast? := by
  cases ls with
  | nil => exact absurd hc (by simp [unlines])
  | cons l ls =>
    rcases hc with hc | hc
    · obtain ⟨r, hr⟩ := unlines_eq_line_append l ls
      have hne : l ≠ [] := fun he => hh (by simp [he])
      rw [hr, List.head?_append_of_ne_nil l hne] at hc
      exact ⟨l, by simp, Or.inl hc⟩
    · -- the last line, with what stands before it
      obtain ⟨ks, k, hk⟩ : ∃ ks k, l :: ls = ks ++ [k] :=
        ⟨_, _, (List.dropLast_append_getLast (List.cons_ne_nil l ls)).symm⟩
      rw [hk] at hl hc ⊢
      have hne : k ≠ [] := by simpa using hl
      rw [unlines_concat, List.getLast?_append_of_ne_nil _ hne] at hc
      exact ⟨k, by simp, Or.inr hc⟩

theorem tidyText_unlines (hl : ∀ l ∈ ls, IsLine l) (hh : ls.head? ≠ some [])
    (ht : ls.getLast? ≠ some []) : TidyText (String.ofList (unlines ls)) := by
  have hline : ∀ l ∈ lines (unlines ls), IsLine l := by
    cases ls with
    | nil =>
      intro l hm
      obtain rfl : l = [] := by simpa [unlines, lines] using hm
      exact ⟨by simp, by simp, by simp⟩
    | cons k ks =>
      rwa [lines_unlines (by simp) fun l hm => (hl l hm).notMem_lf]
  exact {
    noReturn := by
      rw [String.toList_ofList]
      intro hr
      rcases mem_unlines hr with h | ⟨l, hm, hr⟩
      · exact absurd h (by decide)
      · exact (hl l hm).notMem_cr hr
    ends := by
      rw [String.toList_ofList]
      intro c hc
      obtain ⟨l, hm, hc⟩ := exists_ends_unlines hh ht hc
      exact (hl l hm).ends hc
    line_ends := by
      rw [String.toList_ofList]
      intro l hm c hc
      obtain ⟨hspace, htab, -⟩ := (hline l hm).ends hc
      exact ⟨hspace, htab⟩ }

theorem Parts.tidy (hp : Parts summary description tags) :
    Tidy (regionsOf summary description tags) := by
  have hlast := hp.lasts
  have hhead := hp.heads
  have hlines := hp.regionLines
  simp only [List.mem_cons, List.not_mem_nil, or_false, forall_eq_or_imp, forall_eq]
    at hlast hhead hlines
  obtain ⟨hs, hd, -⟩ := hlines
  -- the lines of a region are those of its part
  have hsummary : Comment.regionLines (regionsOf summary description tags).summary.toList =
      summary := by rw [regionsOf, String.toList_ofList, hs]
  have hdescription : Comment.regionLines
      (regionsOf summary description tags).description.toList = description := by
    rw [regionsOf, String.toList_ofList, hd]
  exact {
    summary := tidyText_unlines (fun l hl => hp.line l (by simp [hl])) hhead.1 hlast.1
    description := tidyText_unlines (fun l hl => hp.line l (by simp [hl])) hhead.2.1 hlast.2.1
    tags := tidyText_unlines (fun l hl => hp.line l (by simp [hl])) hhead.2.2 hlast.2.2
    summary_filled := by rw [hsummary]; exact hp.summary_filled
    summary_noTag := by
      rw [hsummary]
      exact fun l hl => noTag_iff.1 (hp.noTag l (by simp [hl]))
    summary_period := by rw [hsummary]; exact hp.summary_period
    description_noTag := by
      rw [hdescription]
      exact fun l hl => noTag_iff.1 (hp.noTag l (by simp [hl]))
    description_empty := by
      intro he
      have hnil : summary = [] := by
        rw [← hsummary, he]
        rfl
      rw [regionsOf, hp.description_nil hnil]
      rfl
    tags_start := by
      by_cases ht : tags = []
      · subst ht
        exact Or.inl rfl
      · refine Or.inr ?_
        rw [regionsOf, String.toList_ofList]
        exact startsTag_iff.1 (hp.startsTag_tags ht) }

end DocComment.Comment

namespace DocComment.Reader

open Comment

/-- The regions of a comment of which anything is left are tidy, and the comment that is
written from them is read as the same document. -/
theorem read_ofRegions (reader : Reader) {comment : String} (h : undecorate comment ≠ "") :
    ∃ r, Regions.of? (undecorate comment) = some r ∧ reader.read comment = reader.document r ∧
      Tidy r ∧ reader.read (ofRegions r) = reader.read comment := by
  obtain ⟨summary, description, tags, hp, hr⟩ := exists_parts_of_comment h
  replace hr : Regions.of? (undecorate comment) = some (regionsOf summary description tags) := hr
  refine ⟨regionsOf summary description tags, hr, ?_, hp.tidy, ?_⟩
  · simp only [read, hr]
  · simp only [read, hp.of?_ofRegions, hr]

/-- A comment that is half decorated, with mixed line endings and gaps around its lines. -/
theorem read_ofRegions_half_decorated :
    let messy := "\t/** A. \r\n\n  *\tb@ *\rc\r\r\n@d\t e */ "
    Tidy ⟨"A.", "b@ *\nc", "@d\t e"⟩ ∧
      (builtin .plain ⟨2, [], []⟩).read
          "/**\n * A.\n *\n * b@ *\n * c\n *\n * @d\t e\n */" =
        (builtin .plain ⟨2, [], []⟩).read messy := by
  intro messy
  have hne : undecorate messy ≠ "" := by decide +kernel
  have hof : Regions.of? (undecorate messy) = some ⟨"A.", "b@ *\nc", "@d\t e"⟩ := by
    decide +kernel
  have hwritten : ofRegions ⟨"A.", "b@ *\nc", "@d\t e"⟩ =
      "/**\n * A.\n *\n * b@ *\n * c\n *\n * @d\t e\n */" := by decide +kernel
  obtain ⟨r, hr, -, htidy, hread⟩ := (builtin .plain ⟨2, [], []⟩).read_ofRegions hne
  obtain rfl : Regions.mk "A." "b@ *\nc" "@d\t e" = r := Option.some.inj (hof.symm.trans hr)
  exact ⟨htidy, hwritten ▸ hread⟩

end DocComment.Reader
