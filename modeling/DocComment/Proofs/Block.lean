import DocComment.Block
import DocComment.Proofs.Html

/-! Plain text is rendered paragraph by paragraph. Pairs of breaks cut a longer run of breaks
somewhere in its middle, so that a part may begin with a break and the last one may end with one;
white space at its ends is nothing to a part, and between two runs of breaks a part is a group of
lines. A paragraph is a part of the text, and nothing but the text and what is rendered from it goes
into a block. -/

namespace DocComment.Renderer

open Text

/-! ### Origin -/

/-- A part between pairs of breaks stands in the text, and the first one begins it. -/
theorem infix_of_cutAtPairs (s : List Char) :
    (∀ p ∈ cutAtPairs s, p <:+: s) ∧ ∀ p ∈ (cutAtPairs s).head?, p <+: s := by
  fun_induction cutAtPairs s with
  | case1 r ih =>
    refine ⟨List.forall_mem_cons.2 ⟨List.nil_infix, fun p hp => ?_⟩, by simp⟩
    exact ((ih.1 p hp).trans (List.suffix_append ['\n', '\n'] r).isInfix)
  | case2 c r _ _ _ =>
    have hbegins : [c] <+: c :: r := List.prefix_append [c] r
    exact ⟨List.forall_mem_singleton.2 hbegins.isInfix, by simp⟩
  | case3 c r _ q qs hq ih =>
    rw [hq] at ih
    have hbegins : c :: q <+: c :: r := List.cons_prefix_cons.2 ⟨rfl, ih.2 q rfl⟩
    refine ⟨List.forall_mem_cons.2 ⟨hbegins.isInfix, fun p hp => ?_⟩, by simpa using hbegins⟩
    exact List.infix_cons (ih.1 p (List.mem_cons_of_mem q hp))
  | case4 => simp

/-- A paragraph is what is left of a part of the text. -/
theorem exists_of_mem_plain {s l : List Char}
    (h : l ∈ ((cutAtPairs s).filter fun p => !p.all isBlank).map fun p =>
      Html.paragraph (Html.escape (strip p))) :
    ∃ p, p <:+: s ∧ l = Html.paragraph (Html.escape p) := by
  obtain ⟨p, hp, rfl⟩ := List.mem_map.1 h
  have hpart := (infix_of_cutAtPairs s).1 p (List.mem_filter.1 hp).1
  exact ⟨strip p, (infix_trim p).trans hpart, rfl⟩

variable {c : Char} {l s p : List Char} {ps : List (List Char)}

/-! ### Parts between pairs of breaks -/

theorem cutAtPairs_ne_nil (s : List Char) : cutAtPairs s ≠ [] := by
  unfold cutAtPairs
  split
  · simp
  · split <;> simp
  · simp

/-- A character that begins no pair of breaks goes with the part behind it. -/
theorem cutAtPairs_cons (hc : c = '\n' → s.head? ≠ some '\n') (hs : cutAtPairs s = p :: ps) :
    cutAtPairs (c :: s) = (c :: p) :: ps := by
  rw [cutAtPairs, hs]
  rintro r rfl rfl
  exact hc rfl rfl

theorem cutAtPairs_line (hl : '\n' ∉ l) (hs : cutAtPairs s = p :: ps) :
    cutAtPairs (l ++ s) = (l ++ p) :: ps := by
  induction l with
  | nil => exact hs
  | cons c l ih =>
    simp only [List.mem_cons, not_or] at hl
    exact cutAtPairs_cons (fun hc => absurd hc.symm hl.1) (ih hl.2)

/-- No pair of breaks stands in a group of lines. -/
theorem cutAtPairs_group {g : List (List Char)} (hg : ∀ l ∈ g, l ≠ [] ∧ '\n' ∉ l)
    (hs : cutAtPairs s = p :: ps) : cutAtPairs (unlines g ++ s) = (unlines g ++ p) :: ps := by
  induction g with
  | nil => exact hs
  | cons l g ih =>
    obtain ⟨⟨-, hl⟩, hg⟩ := List.forall_mem_cons.1 hg
    cases g with
    | nil => exact cutAtPairs_line hl hs
    | cons m ms =>
      obtain ⟨hm, hn⟩ := (List.forall_mem_cons.1 hg).1
      have hhead : (unlines (m :: ms) ++ s).head? ≠ some '\n' := head?_unlines hm hn ms s
      rw [unlines_cons l (by simp), List.append_assoc, List.append_assoc]
      exact cutAtPairs_line hl (cutAtPairs_cons (fun _ => hhead) (ih hg))

/-! ### Parts that are shown -/

theorem shown_cons_of_blank (h : ∀ c ∈ p, isBlank c = true) : shown (p :: ps) = shown ps := by
  have hp : p.all isBlank = true := List.all_eq_true.2 h
  rw [shown, List.filter_cons_of_neg (by simp [hp]), shown]

theorem shown_cons_congr {q : List Char} (hall : p.all isBlank = q.all isBlank)
    (hstrip : strip p = strip q) : shown (p :: ps) = shown (q :: ps) := by
  rw [shown, shown, List.filter_cons, List.filter_cons, hall]
  split_ifs
  · rw [List.map_cons, List.map_cons, hstrip]
  · rfl

theorem strip_cons_of_blank (hc : isBlank c = true) : strip (c :: p) = strip p := by
  rw [strip, trim, List.dropWhile_cons_of_pos hc, ← trim, ← strip]

theorem strip_concat_of_blank (hc : isBlank c = true) : strip (p ++ [c]) = strip p := by
  rw [strip, trim, strip, trim, List.dropWhile_append]
  split_ifs with h
  · rw [List.isEmpty_iff.1 h, List.dropWhile_cons_of_pos hc]
    rfl
  · rw [List.reverse_append, List.reverse_singleton, List.singleton_append,
      List.dropWhile_cons_of_pos hc]

/-- A break in front of a text shows nothing, whatever pair of breaks it may make. -/
theorem shown_cutAtPairs_break (s : List Char) :
    shown (cutAtPairs ('\n' :: s)) = shown (cutAtPairs s) := by
  induction s with
  | nil => rfl
  | cons c s ih =>
    by_cases hc : c = '\n'
    · subst hc
      rw [ih, cutAtPairs, shown_cons_of_blank (by simp)]
    · obtain ⟨p, ps, hs⟩ := List.exists_cons_of_ne_nil (cutAtPairs_ne_nil (c :: s))
      rw [cutAtPairs_cons (by simpa using hc) hs, hs]
      exact shown_cons_congr (by simp [isBlank]) (strip_cons_of_blank rfl)

/-! ### Groups of lines -/

variable {g ls : List (List Char)}

def groupTexts (ls : List (List Char)) : List (List Char) :=
  ((ls.splitOnP List.isEmpty).filter fun g => !g.isEmpty).map unlines

theorem groupTexts_group (hg : g ≠ []) (hfilled : ∀ l ∈ g, l ≠ []) : groupTexts g = [unlines g] := by
  rw [groupTexts, List.splitOnP_eq_singleton fun l hl => by simpa using hfilled l hl]
  simp [hg]

theorem groupTexts_append (ls ms : List (List Char)) :
    groupTexts (ls ++ [] :: ms) = groupTexts ls ++ groupTexts ms := by
  rw [groupTexts, List.splitOnP_append_cons ls ms rfl, List.filter_append, List.map_append]
  rfl

theorem shown_append (ts us : List (List Char)) : shown (ts ++ us) = shown ts ++ shown us := by
  rw [shown, List.filter_append, List.map_append, shown, shown]

/-- A group up to the empty line that ends it is one part. -/
theorem shown_cutAtPairs_group (hg : g ≠ []) (hl : ∀ l ∈ g, l ≠ [] ∧ '\n' ∉ l)
    (ls : List (List Char)) :
    shown (cutAtPairs (unlines (g ++ [] :: ls))) =
      shown [unlines g] ++ shown (cutAtPairs (unlines ls)) := by
  rw [unlines_append hg (by simp)]
  cases ls with
  | nil =>
    have hcut := cutAtPairs_group hl (s := ['\n']) rfl
    have hbreak : shown [unlines g ++ ['\n']] = shown [unlines g] :=
      shown_cons_congr (by simp [isBlank]) (strip_concat_of_blank rfl)
    exact (congrArg shown hcut).trans (hbreak.trans (List.append_nil _).symm)
  | cons l ls =>
    have hcut := cutAtPairs_group hl (s := '\n' :: '\n' :: unlines (l :: ls)) rfl
    rw [List.append_nil] at hcut
    exact (congrArg shown hcut).trans (shown_append [unlines g] _)

/-- The parts between pairs of breaks show what the groups of lines show. A group is collected
line by line until the empty line that ends it. -/
theorem shown_cutAtPairs_append (hg : ∀ l ∈ g, l ≠ [] ∧ '\n' ∉ l) (hls : ∀ l ∈ ls, '\n' ∉ l) :
    shown (cutAtPairs (unlines (g ++ ls))) = shown (groupTexts (g ++ ls)) := by
  induction ls generalizing g with
  | nil =>
    rw [List.append_nil]
    by_cases hne : g = []
    · subst hne
      rfl
    · have hcut := cutAtPairs_group hg (s := []) rfl
      rw [List.append_nil] at hcut
      rw [hcut, groupTexts_group hne fun l hl => (hg l hl).1]
  | cons l ls ih =>
    obtain ⟨hl, hls⟩ := List.forall_mem_cons.1 hls
    have hrest := ih (g := []) (by simp) hls
    by_cases hempty : l = []
    · subst hempty
      rw [groupTexts_append, shown_append]
      by_cases hne : g = []
      · subst hne
        cases ls with
        | nil => rfl
        | cons m ms => exact (shown_cutAtPairs_break _).trans hrest
      · rw [shown_cutAtPairs_group hne hg, groupTexts_group hne fun l hl => (hg l hl).1]
        exact congrArg _ hrest
    · have hone : g ++ l :: ls = g ++ [l] ++ ls := by simp
      rw [hone]
      refine ih (List.forall_mem_append.2 ⟨hg, List.forall_mem_singleton.2 ⟨hempty, hl⟩⟩) hls

theorem shown_cutAtPairs (s : List Char) : shown (cutAtPairs s) = paragraphs s := by
  have hlines : ∀ l ∈ lines s, '\n' ∉ l := fun l hl => (of_mem_lines hl).1
  calc shown (cutAtPairs s) = shown (cutAtPairs (unlines ([] ++ lines s))) := by
        rw [List.nil_append, unlines_lines]
    _ = shown (groupTexts ([] ++ lines s)) := shown_cutAtPairs_append (by simp) hlines
    _ = paragraphs s := rfl

/-! ### Rendered text -/

theorem plainHtml_eq (s : List Char) : plainHtml s =
    unlines ((paragraphs s).map fun t => Html.paragraph (Html.escape t)) := by
  rw [plainHtml, ← shown_cutAtPairs, shown, List.map_map]
  rfl

/-- Plain text is rendered as its paragraphs, escaped. What they hold makes no difference to how
they are told apart: each is read back as it was. -/
theorem render_plain {text : String} (h : text ≠ "") :
    (plain.render text).source = text ∧
    (plain.render text).html = String.ofList
      (unlines ((paragraphs text.toList).map fun t => Html.paragraph (Html.escape t))) ∧
    (∀ t ∈ paragraphs text.toList,
      (∀ c ∈ Html.escape t, c ≠ '<' ∧ c ≠ '>' ∧ c ≠ '"' ∧ c ≠ '\'') ∧
      (∀ r, '&' :: r <:+ Html.escape t → ∃ n ∈ Html.entities, n <+: '&' :: r) ∧
      Html.unescape (Html.escape t) = t) ∧
    Html.paragraphs? (plain.render text).html.toList = some (paragraphs text.toList) := by
  have hblock : plain.render text = ⟨text, String.ofList (plainHtml text.toList)⟩ := if_neg h
  rw [hblock, plainHtml_eq]
  refine ⟨rfl, rfl, fun t _ => ⟨fun c hc => ?_, fun r => Html.exists_entity_of_suffix,
    Html.unescape_escape t⟩, ?_⟩
  · have hne (d : Char) (hspecial : Html.isSpecial d = true) (hand : d ≠ '&') : c ≠ d :=
      ne_of_mem_of_not_mem hc (Html.notMem_escape hspecial hand)
    exact ⟨hne '<' rfl (by decide), hne '>' rfl (by decide), hne '"' rfl (by decide),
      hne '\'' rfl (by decide)⟩
  · rw [String.toList_ofList]
    exact Html.paragraphs?_unlines _

/-- Runs of one, three and four breaks, a group of white space, and a text that looks like the
end of a paragraph. -/
theorem render_plain_breaks :
    let text := "\na\n</p>&lt;\n\n\n \t\n\n\n\n'b'\n"
    text ≠ "" ∧ paragraphs text.toList = ["a\n</p>&lt;".toList, "'b'".toList] ∧
      (plain.render text).html = "<p>a\n&lt;/p&gt;&amp;lt;</p>\n<p>&#x27;b&#x27;</p>" ∧
      Html.paragraphs? (plain.render text).html.toList =
        some ["a\n</p>&lt;".toList, "'b'".toList] := by
  intro text
  have hne : text ≠ "" := by decide
  have htexts : paragraphs text.toList = ["a\n</p>&lt;".toList, "'b'".toList] := by decide +kernel
  obtain ⟨-, hhtml, -, hread⟩ := render_plain hne
  rw [htexts] at hhtml hread
  exact ⟨hne, htexts, hhtml, hread⟩

end DocComment.Renderer
