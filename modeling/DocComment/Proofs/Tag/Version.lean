import DocComment.Proofs.Version.Cut
import DocComment.Tag.Interpreter

/-! What the tags with versions make of a description. A description of several lines gives the
empty tag. One line is cut into a version, an ending version for a deprecation, a gap and a
remark; each is as long as it can be, so that the cut is determined, and the fields of the tag
are its parts. -/

namespace DocComment.Builtin

open Text Version

/-! ### One line -/

theorem exists_deprecatedTag {s : List Char} (h : '\n' ∉ s) :
    ∃ v e gap r, IsCut IsEnding s v e gap r ∧
      deprecatedTag s = .deprecated (field v) (field (e.drop 1)) (field r) := by
  obtain ⟨v, hv, hversion, hstarting⟩ := exists_leading s
  obtain ⟨e, he, hending, hended⟩ := exists_ending (leading s).2
  obtain ⟨gap, r, hr, hgap, hremark⟩ := exists_remark (ending (leading s).2).2
  refine ⟨v, e, gap, r, ⟨?_, hversion, ?_, ?_⟩, ?_⟩
  · rw [← hr, ← he, ← hv]
  · rwa [← hr, ← he]
  · rwa [← hr]
  · simp [deprecatedTag, h, hstarting, hended, hremark]

theorem exists_versionTag {s : List Char} (h : '\n' ∉ s) :
    ∃ v gap r, IsCut (· = []) s v [] gap r ∧ versionTag s = .version (field v) (field r) := by
  obtain ⟨v, hv, hversion, hnumber⟩ := exists_leading s
  obtain ⟨gap, r, hr, hgap, hremark⟩ := exists_remark (leading s).2
  refine ⟨v, gap, r, ⟨?_, hversion, ?_, ?_⟩, ?_⟩
  · rw [List.nil_append, ← hr, ← hv]
  · exact isLongest_nil _
  · rwa [← hr]
  · simp [versionTag, h, hnumber, hremark]

/-- A cut of a line is the one that is read. -/
theorem deprecatedTag_of_isCut {s v e gap r : List Char} (h : '\n' ∉ s)
    (hc : IsCut IsEnding s v e gap r) :
    deprecatedTag s = .deprecated (field v) (field (e.drop 1)) (field r) := by
  obtain ⟨v', e', gap', r', hc', htag⟩ := exists_deprecatedTag h
  obtain ⟨rfl, rfl, rfl, rfl⟩ := hc.unique hc'
  exact htag

theorem versionTag_of_isCut {s v gap r : List Char} (h : '\n' ∉ s)
    (hc : IsCut (· = []) s v [] gap r) : versionTag s = .version (field v) (field r) := by
  obtain ⟨v', gap', r', hc', htag⟩ := exists_versionTag h
  obtain ⟨rfl, -, rfl, rfl⟩ := hc.unique hc'
  exact htag

/-! ### Versions in front of a text -/

variable {v w text : List Char}

theorem deprecatedTag_versions (hv : IsVersion v) (hw : IsVersion w) (hne : text ≠ [])
    (hn : '\n' ∉ text) (ht : ∀ c ∈ text.head?, isGap c = false) :
    deprecatedTag (v ++ ':' :: (w ++ ' ' :: text)) =
      .deprecated (some (String.ofList v)) (some (String.ofList w)) (some (String.ofList text)) := by
  have hline : '\n' ∉ v ++ ':' :: (w ++ ' ' :: text) := by
    simp [hn, IsVersion.notMem (c := '\n') rfl v hv, IsVersion.notMem (c := '\n') rfl w hw]
  rw [deprecatedTag_of_isCut hline (isCut_versions hv hw hne ht), hv.field, List.drop_succ_cons,
    List.drop_zero, hw.field, field_of_ne_nil hne]

theorem tags_version (hv : IsVersion v) (hne : text ≠ []) (hn : '\n' ∉ text)
    (ht : ∀ c ∈ text.head?, isGap c = false) :
    deprecatedTag (v ++ ' ' :: text) =
        .deprecated (some (String.ofList v)) none (some (String.ofList text)) ∧
      versionTag (v ++ ' ' :: text) =
        .version (some (String.ofList v)) (some (String.ofList text)) := by
  have hline : '\n' ∉ v ++ ' ' :: text := by
    simp [hn, IsVersion.notMem (c := '\n') rfl v hv]
  have hending : IsLongest IsEnding ([] ++ ([' '] ++ text)) [] := by
    refine .missing ?_
    rintro _ ⟨hw⟩ hs
    exact absurd (List.cons_prefix_cons.1 hs).1 (by decide)
  rw [deprecatedTag_of_isCut hline (isCut_version hv hending hne ht),
    versionTag_of_isCut hline (isCut_version hv (isLongest_nil _) hne ht), hv.field,
    field_of_ne_nil hne]
  exact ⟨rfl, rfl⟩

/-! ### Descriptions -/

/-- A description of one line is cut into its parts, and the fields of the tag are these; one of
several lines gives the empty tag. -/
theorem interpret_description (renderer : Renderer) (special : Option String) :
    (∀ body : String, '\n' ∈ body.toList →
      (deprecated.interpreter renderer).interpret .description body special =
          some (.deprecated none none none) ∧
        (version.interpreter renderer).interpret .description body special =
          some (.version none none)) ∧
    (∀ body : String, '\n' ∉ body.toList →
      (∃ v e gap r, IsCut IsEnding body.toList v e gap r ∧
        (deprecated.interpreter renderer).interpret .description body special =
          some (.deprecated (field v) (field (e.drop 1)) (field r))) ∧
      ∃ v gap r, IsCut (· = []) body.toList v [] gap r ∧
        (version.interpreter renderer).interpret .description body special =
          some (.version (field v) (field r))) ∧
    ∀ s t text : String, IsVersion s.toList → IsVersion t.toList → text ≠ "" →
      '\n' ∉ text.toList → (∀ c ∈ text.toList.head?, isGap c = false) →
      (deprecated.interpreter renderer).interpret .description
          (s ++ ":" ++ t ++ " " ++ text) special =
          some (.deprecated (some s) (some t) (some text)) ∧
        (deprecated.interpreter renderer).interpret .description (s ++ " " ++ text) special =
          some (.deprecated (some s) none (some text)) ∧
        (version.interpreter renderer).interpret .description (s ++ " " ++ text) special =
          some (.version (some s) (some text)) := by
  refine ⟨fun body h => ?_, fun body h => ⟨?_, ?_⟩, fun s t text hs ht hne hn hgap => ?_⟩
  · simp [interpreter, tag?, deprecatedTag, versionTag, h]
  · obtain ⟨v, e, gap, r, hc, htag⟩ := exists_deprecatedTag h
    exact ⟨v, e, gap, r, hc, congrArg some htag⟩
  · obtain ⟨v, gap, r, hc, htag⟩ := exists_versionTag h
    exact ⟨v, gap, r, hc, congrArg some htag⟩
  · have hne' : text.toList ≠ [] := by simpa using hne
    have hboth := deprecatedTag_versions hs ht hne' hn hgap
    obtain ⟨hdeprecated, hversion⟩ := tags_version hs hne' hn hgap
    simp only [String.ofList_toList] at hboth hdeprecated hversion
    simp [interpreter, tag?, hboth, hdeprecated, hversion]

/-- A text of two lines, a version whose colon stands in front of none, and two versions in front
of a remark that begins with a colon. -/
theorem interpret_description_untidy :
    '\n' ∈ "1.0.0 a\nb".toList ∧ '\n' ∉ "1.2.0-rc-:02.0.0 c".toList ∧
      IsVersion "0.10.2-rc.1".toList ∧ IsVersion "10.0.0".toList ∧
      (deprecated.interpreter .plain).interpret .description "1.0.0 a\nb" none =
        some (.deprecated none none none) ∧
      (∃ v e gap r, IsCut IsEnding "1.2.0-rc-:02.0.0 c".toList v e gap r ∧
        (deprecated.interpreter .plain).interpret .description "1.2.0-rc-:02.0.0 c" none =
          some (.deprecated (field v) (field (e.drop 1)) (field r))) ∧
      (deprecated.interpreter .plain).interpret .description
          ("0.10.2-rc.1" ++ ":" ++ "10.0.0" ++ " " ++ ": use it") none =
        some (.deprecated (some "0.10.2-rc.1") (some "10.0.0") (some ": use it")) := by
  have hs : IsVersion "0.10.2-rc.1".toList :=
    take?_sound (s := "0.10.2-rc.1".toList) (r := []) (by decide +kernel)
  have ht : IsVersion "10.0.0".toList :=
    take?_sound (s := "10.0.0".toList) (r := []) (by decide +kernel)
  obtain ⟨hlines, hline, hversions⟩ := interpret_description .plain none
  refine ⟨by decide +kernel, by decide +kernel, hs, ht, (hlines _ (by decide +kernel)).1,
    (hline _ (by decide +kernel)).1, ?_⟩
  exact (hversions _ _ ": use it" hs ht (by decide) (by decide +kernel) (by simp [isGap])).1

end DocComment.Builtin
