import DocComment.Proofs.Block
import DocComment.Proofs.Comment.Decoration
import DocComment.Proofs.Document.Origin
import DocComment.Proofs.Xml.Export

/-! A comment that may stand in XML is exported. Every string that is exported is a part of the
comment or is made of such parts, of breaks and of the constants of the renderer; and every
tag that reading gives has a view. -/

namespace DocComment

open Text Xml

namespace Xml

theorem isCompatible_iff {c : Char} : isCompatible c = true ↔ ¬ IsExcluded c.toNat := by
  rw [isCompatible, Bool.not_eq_true', ← Bool.not_eq_true, not_iff_not]
  simp [IsExcluded, or_assoc]

theorem IsText.mono {s t : String} (ht : IsText t) (h : s.toList <:+: t.toList) : IsText s :=
  fun c hc => ht c (h.subset hc)

end Xml

/-! ### Rendered text -/

theorem isCompatible_of_mem_escapeChar {d : Char} (hd : isCompatible d = true) :
    ∀ c ∈ Html.escapeChar d, isCompatible c = true := by
  apply List.all_eq_true.1
  rw [Html.escapeChar]
  split_ifs
  · rfl
  · rfl
  · rfl
  · rfl
  · rfl
  · simpa using hd

theorem isCompatible_of_mem_escape {s : List Char} (hs : ∀ c ∈ s, isCompatible c = true) :
    ∀ c ∈ Html.escape s, isCompatible c = true := by
  intro c hc
  obtain ⟨d, hd, hc⟩ := List.mem_flatMap.1 hc
  exact isCompatible_of_mem_escapeChar (hs d hd) c hc

theorem isCompatible_of_mem_plainHtml {s : List Char} (hs : ∀ c ∈ s, isCompatible c = true) :
    ∀ c ∈ Renderer.plainHtml s, isCompatible c = true := by
  intro c hc
  rcases mem_unlines hc with rfl | ⟨l, hl, hc⟩
  · rfl
  · obtain ⟨p, hp, rfl⟩ := Renderer.exists_of_mem_plain hl
    rw [Html.paragraph, List.mem_append, List.mem_append] at hc
    rcases hc with (hc | hc) | hc
    · exact List.all_eq_true.1 (by rfl) c hc
    · exact isCompatible_of_mem_escape (fun c hc => hs c (hp.subset hc)) c hc
    · exact List.all_eq_true.1 (by rfl) c hc

/-- Rendered text holds nothing but the text and the constants of the renderer. -/
theorem isText_plain {text : String} (h : IsText text) :
    ∀ s ∈ (Renderer.plain.render text).strings, IsText s := by
  show ∀ s ∈ (Renderer.block Renderer.plainHtml text).strings, IsText s
  rw [Renderer.block]
  split_ifs
  · simp [Block.strings, IsText]
  · refine List.forall_mem_cons.2 ⟨h, List.forall_mem_singleton.2 fun c hc => ?_⟩
    rw [String.toList_ofList] at hc
    exact isCompatible_of_mem_plainHtml h c hc

theorem isText_of_stemsFrom {text : String} (h : IsText text) {s : String}
    (hs : Renderer.plain.StemsFrom text.toList s) : IsText s := by
  rcases hs with hpart | ⟨part, hpart, hs⟩
  · exact h.mono hpart
  · exact isText_plain (h.mono hpart) s hs

/-! ### Tags -/

/-- A tag that is exported: it has a view, whose strings may stand in XML. -/
def Tag.IsClean (t : Tag) : Prop := ∃ v, t.view? = some v ∧ ∀ s ∈ v.strings, IsText s

/-- A tag of this library is exported when its strings may stand in XML. A `todo` without a
block is exported with a string of its own, the empty one. -/
theorem isClean_of_strings {t : Tag} (hk : t.kind ≠ .foreign) (h : ∀ s ∈ t.strings, IsText s) :
    t.IsClean := by
  cases t with
  | foreign => exact absurd rfl hk
  | copyright description =>
    exact ⟨_, rfl, List.forall_mem_singleton.2 (h _ (by simp [Tag.strings, Block.strings]))⟩
  | todo description =>
    refine ⟨_, rfl, List.forall_mem_singleton.2 ?_⟩
    cases description with
    | none => simp [IsText]
    | some b => exact h _ (by simp [Tag.strings, Block.strings])
  | deprecated => exact ⟨_, rfl, by simpa [TagView.strings, Tag.strings] using h⟩
  | _ => exact ⟨_, rfl, h⟩

theorem kind_unknown_ne (o : Occurrence) : o.unknown.kind ≠ .foreign := by
  rw [Occurrence.unknown]
  split <;> simp [Tag.kind]

theorem kind_deprecatedTag (body : List Char) :
    (Builtin.deprecatedTag body).kind = .deprecated := by
  rw [Builtin.deprecatedTag]
  split_ifs <;> rfl

theorem kind_versionTag (body : List Char) : (Builtin.versionTag body).kind = .version := by
  rw [Builtin.versionTag]
  split_ifs <;> rfl

theorem kind_ne_of_tag? {renderer : Renderer} {b : Builtin} {kind : BodyKind} {body : String}
    {t : Tag} (h : b.tag? renderer kind body = some t) : t.kind ≠ .foreign := by
  unfold Builtin.tag? at h
  split at h
  case h_12 => exact absurd h (by simp)
  all_goals obtain rfl := Option.some.inj h
  case h_9 => simp [kind_deprecatedTag]
  case h_11 => simp [kind_versionTag]
  all_goals simp [Tag.kind]

/-- No tag that an occurrence is resolved to is of a foreign kind. -/
theorem kind_ne_of_resolve {renderer : Renderer} {disabled : List String} {o : Occurrence}
    {t : Tag} (h : o.resolve (Registry.builtin renderer disabled).get? = some t) :
    t.kind ≠ .foreign := by
  rw [Occurrence.resolve] at h
  split at h
  next =>
    obtain rfl := Option.some.inj h
    exact kind_unknown_ne o
  next i hi =>
    obtain ⟨-, b, -, rfl⟩ := Registry.get?_builtin_eq_some_iff.1 hi
    exact kind_ne_of_tag? h

/-! ### Documents -/

theorem exists_mapM_view? {ts : List Tag} (h : ∀ t ∈ ts, t.IsClean) :
    ∃ vs, ts.mapM Tag.view? = some vs ∧ ∀ s ∈ vs.flatMap TagView.strings, IsText s := by
  induction ts with
  | nil => exact ⟨[], rfl, by simp⟩
  | cons t ts ih =>
    obtain ⟨⟨v, hv, hs⟩, hts⟩ := List.forall_mem_cons.1 h
    obtain ⟨vs, hvs, hall⟩ := ih hts
    refine ⟨v :: vs, by simp [hv, hvs], ?_⟩
    rw [List.flatMap_cons, List.forall_mem_append]
    exact ⟨hs, hall⟩

/-- A document is exported if all its parts are. -/
theorem exists_toXml {d : Document} (hs : IsText d.summary) (hd : IsText d.description.html)
    (ht : ∀ t ∈ d.tags, t.IsClean) (pretty : Bool) : ∃ x, d.toXml pretty = .ok x := by
  obtain ⟨vs, hvs, hall⟩ := exists_mapM_view? ht
  have hview : d.view? = some ⟨d.summary, d.description.html, vs⟩ := by
    rw [Document.view?, hvs]
    rfl
  have hc : View.IsCompatible ⟨d.summary, d.description.html, vs⟩ :=
    List.forall_mem_cons.2 ⟨hs, List.forall_mem_cons.2 ⟨hd, hall⟩⟩
  exact ⟨_, toXml_eq_ok_iff.2 ⟨_, hview, hc, rfl⟩⟩

theorem isText_undecorate {comment : String} (h : IsText comment) :
    IsText (Comment.undecorate comment) := by
  intro c hc
  rcases Comment.mem_undecorate hc with rfl | hc
  · rfl
  · exact h c hc

/-- The regions of a text that may stand in XML are exported. -/
theorem exists_toXml_document {text : String} (h : IsText text) {r : Regions}
    (hr : Regions.of? text = some r) (config : Config) (pretty : Bool) :
    ∃ x, ((Reader.builtin .plain config).document r).toXml pretty = .ok x := by
  have hstrings : ∀ s ∈ ((Reader.builtin .plain config).document r).strings, IsText s :=
    fun s hs => isText_of_stemsFrom h (stemsFrom_document hr config s hs)
  obtain ⟨hsummary, hrest⟩ := List.forall_mem_cons.1 hstrings
  obtain ⟨hdescription, htags⟩ := List.forall_mem_append.1 hrest
  refine exists_toXml hsummary (hdescription _ (by simp [Block.strings])) (fun t ht => ?_) pretty
  obtain ⟨o, -, hresolve⟩ := List.mem_filterMap.1 ht
  exact isClean_of_strings (kind_ne_of_resolve hresolve) fun s hs =>
    htags s (List.mem_flatMap.2 ⟨t, ht, hs⟩)

/-- A comment without characters that XML excludes is exported, whatever the settings. A text is a
sequence of Unicode scalar values, so that no surrogate can stand in it. -/
theorem Reader.exists_toXml_read (config : Config) {comment : String}
    (h : ∀ c ∈ comment.toList, ¬ IsExcluded c.toNat) (pretty : Bool) :
    ∃ x, ((Reader.builtin .plain config).read comment).toXml pretty = .ok x := by
  have htext : IsText (Comment.undecorate comment) :=
    isText_undecorate fun c hc => isCompatible_iff.2 (h c hc)
  rw [Reader.read]
  split
  -- the empty comment has no regions and gives the empty document
  next => exact exists_toXml (by simp [IsText]) (by simp [IsText]) (by simp) pretty
  next r hr =>
    exact exists_toXml_document htext hr config pretty

theorem Reader.exists_toXml_read_markup :
    (∀ c ∈ "/** A <b>.\n * @x:y \x7b@c \"&\"\x7d\n * @todo '\t' */".toList, ¬ IsExcluded c.toNat) ∧
      ∃ x, ((Reader.builtin .plain ⟨1, ["copyright"], []⟩).read
        "/** A <b>.\n * @x:y \x7b@c \"&\"\x7d\n * @todo '\t' */").toXml true = .ok x := by
  have h : ∀ c ∈ "/** A <b>.\n * @x:y \x7b@c \"&\"\x7d\n * @todo '\t' */".toList,
      ¬ IsExcluded c.toNat := fun c hc =>
    isCompatible_iff.1 (List.all_eq_true.1 (by decide +kernel) c hc)
  exact ⟨h, Reader.exists_toXml_read _ h true⟩

end DocComment
