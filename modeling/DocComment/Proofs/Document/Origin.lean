import DocComment.Document
import DocComment.Proofs.Occurrence.Pieces
import DocComment.Proofs.Regions.Boundary
import DocComment.Proofs.Tag.Registry
import DocComment.Proofs.Version
import DocComment.Reader

/-! Where the strings of a document come from. Each is a part of the undecorated comment or is
what the renderer makes of one: a tag takes parts of its occurrence, an occurrence parts of
its region, and a region is a part of the text. -/

namespace DocComment

variable {renderer : Renderer} {text : List Char} {s : String}

namespace Renderer.StemsFrom

theorem mono {whole : List Char} (h : renderer.StemsFrom text s) (ht : text <:+: whole) :
    renderer.StemsFrom whole s :=
  h.imp (fun hs => hs.trans ht) fun ⟨part, hp, hs⟩ => ⟨part, hp.trans ht, hs⟩

theorem empty (renderer : Renderer) (text : List Char) : renderer.StemsFrom text "" :=
  Or.inl List.nil_infix

/-- A part of a text, which may be missing. -/
theorem of_part {part : Option (List Char)} (h : ∀ l ∈ part, l <:+: text) :
    ∀ s ∈ (part.map String.ofList).toList, renderer.StemsFrom text s := by
  intro s hs
  obtain ⟨l, hl, rfl⟩ := Option.map_eq_some_iff.1 (Option.mem_toList.1 hs)
  exact Or.inl (by simpa using h l hl)

end Renderer.StemsFrom

open Renderer (StemsFrom)

/-! ### Tags -/

theorem Occurrence.strings_unknown (o : Occurrence) : o.unknown.strings ⊆ o.strings := by
  have hhead : o.name :: o.specialization.toList ⊆ o.strings :=
    List.cons_subset_cons _ (List.subset_append_left _ _)
  rw [Occurrence.unknown]
  split
  · exact hhead
  · exact List.Subset.refl _
  · exact List.Subset.refl _
  · exact List.Subset.refl _

theorem stemsFrom_deprecatedTag (body : List Char) :
    ∀ s ∈ (Builtin.deprecatedTag body).strings, renderer.StemsFrom body s := by
  rw [Builtin.deprecatedTag]
  split_ifs
  · simp [Tag.strings]
  · obtain ⟨hstarting, hrest⟩ := Version.infix_leading body
    obtain ⟨hending, hrest'⟩ := Version.infix_ending (Version.leading body).2
    rw [Tag.strings, List.forall_mem_append, List.forall_mem_append]
    refine ⟨.of_part hstarting, .of_part fun l hl => (hending l hl).trans hrest, ?_⟩
    exact .of_part fun l hl => (Version.infix_remark hl).trans (hrest'.trans hrest)

theorem stemsFrom_versionTag (body : List Char) :
    ∀ s ∈ (Builtin.versionTag body).strings, renderer.StemsFrom body s := by
  rw [Builtin.versionTag]
  split_ifs
  · simp [Tag.strings]
  · obtain ⟨hnumber, hrest⟩ := Version.infix_leading body
    rw [Tag.strings, List.forall_mem_append]
    exact ⟨.of_part hnumber, .of_part fun l hl => (Version.infix_remark hl).trans hrest⟩

theorem stemsFrom_of_tag? {b : Builtin} {kind : BodyKind} {body : String} {t : Tag}
    (h : b.tag? renderer kind body = some t) :
    ∀ s ∈ t.strings, renderer.StemsFrom body.toList s := by
  have hrendered : ∀ s ∈ (renderer.render body).strings, renderer.StemsFrom body.toList s :=
    fun s hs => Or.inr ⟨body, List.infix_refl _, hs⟩
  unfold Builtin.tag? at h
  split at h
  -- the cases are the lines of the table in its order; the last one is what is rejected
  case h_12 => exact absurd h (by simp)
  all_goals obtain rfl := Option.some.inj h
  · simp [Tag.strings]
  · simp [Tag.strings]
  · simp [Tag.strings]
  · simp [Tag.strings]
  · exact hrendered
  · simp [Tag.strings]
  · simpa [Tag.strings] using hrendered
  · simp [Tag.strings]
  · exact stemsFrom_deprecatedTag _
  · simp [Tag.strings]
  · exact stemsFrom_versionTag _

theorem stemsFrom_of_resolve {disabled : List String} {o : Occurrence} {t : Tag}
    (ho : ∀ s ∈ o.strings, s.toList <:+: text)
    (h : o.resolve (Registry.builtin renderer disabled).get? = some t) :
    ∀ s ∈ t.strings, renderer.StemsFrom text s := by
  rw [Occurrence.resolve] at h
  split at h
  next =>
    obtain rfl := Option.some.inj h
    exact fun s hs => Or.inl (ho s (o.strings_unknown hs))
  next i hi =>
    obtain ⟨-, b, -, rfl⟩ := Registry.get?_builtin_eq_some_iff.1 hi
    have hbody : o.body.toList <:+: text := ho o.body (by simp [Occurrence.strings])
    exact fun s hs => (stemsFrom_of_tag? h s hs).mono hbody

/-! ### Documents -/

theorem stemsFrom_document {comment : String} {r : Regions} (hr : Regions.of? comment = some r)
    (config : Config) :
    ∀ s ∈ ((Reader.builtin renderer config).document r).strings,
      renderer.StemsFrom comment.toList s := by
  obtain ⟨hsummary, hdescription, htags⟩ := Regions.infix_of_of? hr
  rw [Document.strings, List.forall_mem_cons, List.forall_mem_append]
  refine ⟨Or.inl hsummary, fun s hs => Or.inr ⟨_, hdescription, hs⟩, fun s hs => ?_⟩
  obtain ⟨t, ht, hs⟩ := List.mem_flatMap.1 hs
  obtain ⟨o, ho, hresolve⟩ := List.mem_filterMap.1 ht
  exact (stemsFrom_of_resolve (Occurrence.infix_of_mem_scan ho) hresolve s hs).mono htags

/-- Whatever is read of a comment stands in the comment without its decoration, or has been
rendered from what stands there. -/
theorem Reader.stemsFrom_read (renderer : Renderer) (config : Config) (comment : String) :
    ∀ s ∈ ((Reader.builtin renderer config).read comment).strings,
      renderer.StemsFrom (Comment.undecorate comment).toList s := by
  rw [Reader.read]
  split
  next =>
    -- nothing but the defaults of an empty document
    intro s hs
    have hempty : s = "" := by simpa [Document.strings, Block.strings] using hs
    exact hempty ▸ .empty renderer _
  next r hr =>
    exact stemsFrom_document hr config

end DocComment
