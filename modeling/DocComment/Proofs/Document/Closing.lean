import DocComment.Proofs.Block
import DocComment.Proofs.Comment.Closing
import DocComment.Proofs.Document.Origin

/-! No string that is read of an extracted comment holds a closing. The text of the comment does
not, so neither do its parts, and an entity or a tag of HTML beside a character makes none. -/

namespace DocComment

open Text Comment

variable {s : List Char}

/-- A character and what is escaped behind it are no closing, unless they were one. -/
theorem Comment.Unclosed.escape (h : Unclosed s) : Unclosed (Html.escape s) := by
  induction s with
  | nil => exact h
  | cons c s ih =>
    obtain ⟨hc, hs⟩ := unclosed_cons.1 h
    have hhead : (Html.escape s).head? = some '/' → s.head? = some '/' := by
      cases s with
      | nil => exact id
      | cons d s =>
        rw [Html.escape, List.flatMap_cons, Html.escapeChar]
        split_ifs <;> simp
    have htail : Unclosed (Html.escapeChar c ++ Html.escape s) := by
      rw [Html.escapeChar]
      split_ifs
      · simpa [unclosed_cons] using ih hs
      · simpa [unclosed_cons] using ih hs
      · simpa [unclosed_cons] using ih hs
      · simpa [unclosed_cons] using ih hs
      · simpa [unclosed_cons] using ih hs
      · exact unclosed_cons.2 ⟨fun hp => hc ⟨hp.1, hhead hp.2⟩, ih hs⟩
    exact htail

theorem Comment.Unclosed.paragraph (h : Unclosed s) : Unclosed (Html.paragraph s) := by
  have hclosed : Unclosed (s ++ '<' :: ['/', 'p', '>']) :=
    (unclosed_append_cons (by decide) (by decide)).2 ⟨h, by decide⟩
  simpa [Html.paragraph, unclosed_cons] using hclosed

theorem unclosed_rendered {text : String} (h : Unclosed text.toList) :
    ∀ s ∈ (Renderer.plain.render text).strings, Unclosed s.toList := by
  show ∀ s ∈ (Renderer.block Renderer.plainHtml text).strings, Unclosed s.toList
  rw [Renderer.block]
  split_ifs
  · simp [Block.strings, Unclosed]
  · refine List.forall_mem_cons.2 ⟨h, List.forall_mem_singleton.2 ?_⟩
    rw [String.toList_ofList]
    refine unclosed_unlines fun l hl => ?_
    obtain ⟨p, hp, rfl⟩ := Renderer.exists_of_mem_plain hl
    exact (h.part hp).escape.paragraph

/-- A comment that is extracted keeps no closing when its decoration is taken off, and no string
of its document holds one. -/
theorem extract_unclosed (source : String) :
    (∀ comment ∈ extract source, Unclosed (undecorate comment).toList) ∧
      ∀ (config : Config), ∀ d ∈ (Reader.builtin .plain config).readAll (extract source),
        ∀ s ∈ d.strings, Unclosed s.toList := by
  refine ⟨fun comment => unclosed_undecorate, fun config d hd s hs => ?_⟩
  obtain ⟨comment, hcomment, rfl⟩ := List.mem_map.1 hd
  have htext := unclosed_undecorate hcomment
  rcases Reader.stemsFrom_read .plain config comment s hs with hpart | ⟨part, hpart, hs⟩
  · exact htext.part hpart
  · exact unclosed_rendered (htext.part hpart) s hs

/-- A star and a slash with nothing but decoration, a break or an ampersand between them. -/
theorem extract_unclosed_touching :
    let source := "/****/ /** A.\n\n * x*&/\n **\n * /\n\n@c:d \x7b@e * /\x7d**/"
    let document : Document := ⟨"A.", ⟨"x*&/\n*\n/", "<p>x*&amp;/\n*\n/</p>"⟩,
      [.unknownInline "c" (some "d") "\x7b@e * /\x7d"]⟩
    "/****/" ∈ extract source ∧ Unclosed (undecorate "/****/").toList ∧
      document ∈ (Reader.builtin .plain ⟨1, [], []⟩).readAll (extract source) ∧
      ∀ s ∈ document.strings, Unclosed s.toList := by
  intro source document
  have hcomment : "/****/" ∈ extract source := by decide +kernel
  have hdocument : document ∈ (Reader.builtin .plain ⟨1, [], []⟩).readAll (extract source) := by
    decide +kernel
  obtain ⟨hundecorated, hread⟩ := extract_unclosed source
  exact ⟨hcomment, hundecorated _ hcomment, hdocument, hread ⟨1, [], []⟩ _ hdocument⟩

end DocComment
