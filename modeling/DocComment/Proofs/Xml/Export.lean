import DocComment.Outcome
import DocComment.Xml.View
import Mathlib.Data.List.Basic

/-! When a document is exported. What is exported is the printed element of the document's view,
and it is exported just when no tag is of a foreign kind and all strings of the view may stand
in XML. -/

namespace DocComment.Xml

theorem compatible_eq_ok_iff {s t : String} : compatible s = .ok t ↔ IsText s ∧ s = t := by
  have hs : s.toList.all isCompatible = true ↔ IsText s := List.all_eq_true
  simp only [compatible, hs]
  split_ifs with h <;> simp [h]

/-! ### Leaves -/

def Leaf.strings (l : Leaf) : List String := l.attributes.map Prod.snd ++ l.text.toList

theorem attributes_eq_ok_iff {as : List (String × Option String)} {vs : List (String × String)} :
    attributes as = .ok vs ↔ (∀ s ∈ (given as).map Prod.snd, IsText s) ∧ given as = vs := by
  induction as generalizing vs with
  | nil => simp [attributes, given]
  | cons a as ih =>
    obtain ⟨name, v⟩ := a
    cases v with
    | none => simpa [attributes, given] using ih
    | some v =>
      have hgiven : given ((name, some v) :: as) = (name, v) :: given as := rfl
      rw [attributes, bind_eq_ok_iff, hgiven, List.map_cons, List.forall_mem_cons]
      constructor
      · rintro ⟨v', hv, h⟩
        obtain ⟨hc, rfl⟩ := compatible_eq_ok_iff.1 hv
        obtain ⟨ws, hws, h⟩ := bind_eq_ok_iff.1 h
        obtain ⟨hall, rfl⟩ := ih.1 hws
        exact ⟨⟨hc, hall⟩, Except.ok.inj h⟩
      · rintro ⟨⟨hc, hall⟩, rfl⟩
        exact ⟨v, compatible_eq_ok_iff.2 ⟨hc, rfl⟩, bind_eq_ok_iff.2 ⟨_, ih.2 ⟨hall, rfl⟩, rfl⟩⟩

theorem leaf_eq_ok_iff {name : String} {as : List (String × Option String)}
    {text : Option String} {e : Element} :
    leaf name as text = .ok e ↔
      (∀ s ∈ (Leaf.mk name (given as) text).strings, IsText s) ∧
        (Leaf.mk name (given as) text).element = e := by
  rw [leaf, bind_eq_ok_iff, Leaf.strings, List.forall_mem_append]
  constructor
  · rintro ⟨vs, hvs, h⟩
    obtain ⟨hall, rfl⟩ := attributes_eq_ok_iff.1 hvs
    cases text with
    | none => exact ⟨⟨hall, by simp⟩, Except.ok.inj h⟩
    | some t =>
      obtain ⟨t', ht, h⟩ := bind_eq_ok_iff.1 h
      obtain ⟨hc, rfl⟩ := compatible_eq_ok_iff.1 ht
      exact ⟨⟨hall, by simpa using hc⟩, Except.ok.inj h⟩
  · rintro ⟨⟨hall, htext⟩, rfl⟩
    refine ⟨_, attributes_eq_ok_iff.2 ⟨hall, rfl⟩, ?_⟩
    cases text with
    | none => rfl
    | some t =>
      have hc : compatible t = .ok t := compatible_eq_ok_iff.2 ⟨htext t (by simp), rfl⟩
      exact bind_eq_ok_iff.2 ⟨t, hc, rfl⟩

theorem isText_unlessEmpty {s : String} : (∀ t, unlessEmpty s = some t → IsText t) ↔ IsText s := by
  by_cases hs : s = "" <;> simp [unlessEmpty, hs, IsText]

/-! ### Tags -/

/-- A tag that has a view is exported as the view's leaf. -/
theorem ofTag_of_view? {t : Tag} {v : TagView} (h : t.view? = some v) :
    ofTag t = leaf v.elementName v.fields v.text := by
  cases t with
  | foreign typeName => exact absurd h (by simp [Tag.view?])
  | todo b =>
    obtain rfl := Option.some.inj h
    cases b <;> rfl
  | _ =>
    obtain rfl := Option.some.inj h
    rfl

theorem map_snd_given (as : List (String × Option String)) :
    (given as).map Prod.snd = as.filterMap Prod.snd := by
  rw [given, List.map_filterMap]
  congr 1
  funext a
  cases a.2 <;> rfl

theorem isText_unknownFields (name : String) (specialization : Option String) {kind : String}
    (hk : IsText kind) :
    (∀ s ∈ (TagView.unknownFields name specialization kind).filterMap Prod.snd, IsText s) ↔
      IsText name ∧ ∀ s ∈ specialization.toList, IsText s := by
  cases specialization <;> simp [TagView.unknownFields, hk]

/-- The strings of a tag are those of its leaf, but for the name of its kind. -/
theorem isText_leaf (v : TagView) :
    (∀ s ∈ v.leaf.strings, IsText s) ↔ ∀ s ∈ v.strings, IsText s := by
  rw [Leaf.strings, TagView.leaf, map_snd_given, List.forall_mem_append]
  cases v with
  | unknownEmpty name specialization =>
    rw [TagView.fields, isText_unknownFields name specialization (by decide)]
    simp [TagView.text, TagView.strings]
  | unknownDescription name specialization text =>
    rw [TagView.fields, isText_unknownFields name specialization (by decide)]
    simp [TagView.text, TagView.strings, isText_unlessEmpty, or_imp, forall_and, and_assoc]
  | unknownInline name specialization nested =>
    rw [TagView.fields, isText_unknownFields name specialization (by decide)]
    simp [TagView.text, TagView.strings, isText_unlessEmpty, or_imp, forall_and, and_assoc]
  | _ =>
    simp [TagView.fields, TagView.text, TagView.strings, isText_unlessEmpty, or_imp, forall_and,
      and_assoc]

theorem ofTag_eq_ok_iff {t : Tag} {e : Element} :
    ofTag t = .ok e ↔
      ∃ v, t.view? = some v ∧ (∀ s ∈ v.strings, IsText s) ∧ v.leaf.element = e := by
  cases hv : t.view? with
  | none =>
    obtain ⟨typeName, rfl⟩ : ∃ typeName, t = .foreign typeName := by
      cases t <;> simp_all [Tag.view?]
    simp [ofTag]
  | some v =>
    rw [ofTag_of_view? hv, leaf_eq_ok_iff]
    constructor
    · rintro ⟨hall, he⟩
      exact ⟨v, rfl, (isText_leaf v).1 hall, he⟩
    · rintro ⟨v', hv', hall, he⟩
      obtain rfl := Option.some.inj hv'
      exact ⟨(isText_leaf v).2 hall, he⟩

theorem mapM_ofTag_eq_ok_iff {ts : List Tag} {es : List Element} :
    ts.mapM ofTag = .ok es ↔ ∃ vs, ts.mapM Tag.view? = some vs ∧
      (∀ s ∈ vs.flatMap TagView.strings, IsText s) ∧ vs.map (fun v => v.leaf.element) = es := by
  induction ts generalizing es with
  | nil => simp [pure, Except.pure]
  | cons t ts ih =>
    rw [List.mapM_cons, bind_eq_ok_iff]
    constructor
    · rintro ⟨e, he, h⟩
      obtain ⟨fs, hfs, h⟩ := bind_eq_ok_iff.1 h
      obtain ⟨v, hv, hall, rfl⟩ := ofTag_eq_ok_iff.1 he
      obtain ⟨vs, hvs, hall', rfl⟩ := ih.1 hfs
      refine ⟨v :: vs, by simp [hv, hvs], ?_, Except.ok.inj h⟩
      rw [List.flatMap_cons, List.forall_mem_append]
      exact ⟨hall, hall'⟩
    · rintro ⟨ws, hws, hall, rfl⟩
      obtain ⟨v, hv, vs, hvs, rfl⟩ : ∃ v, t.view? = some v ∧ ∃ vs, ts.mapM Tag.view? = some vs ∧
          v :: vs = ws := by simpa [Option.bind_eq_some_iff] using hws
      rw [List.flatMap_cons, List.forall_mem_append] at hall
      exact ⟨_, ofTag_eq_ok_iff.2 ⟨v, hv, hall.1, rfl⟩,
        bind_eq_ok_iff.2 ⟨_, ih.2 ⟨vs, hvs, hall.2, rfl⟩, rfl⟩⟩

/-! ### Documents -/

theorem leaf_unlessEmpty_eq_ok_iff {name s : String} {e : Element} :
    leaf name [] (unlessEmpty s) = .ok e ↔
      IsText s ∧ (Leaf.mk name [] (unlessEmpty s)).element = e := by
  rw [leaf_eq_ok_iff]
  simp [Leaf.strings, given, isText_unlessEmpty]

theorem ofDocument_eq_ok_iff {d : Document} {e : Element} :
    ofDocument d = .ok e ↔ ∃ v, d.view? = some v ∧ v.IsCompatible ∧ v.element = e := by
  rw [ofDocument, bind_eq_ok_iff]
  constructor
  · rintro ⟨summary, hs, h⟩
    obtain ⟨description, hd, h⟩ := bind_eq_ok_iff.1 h
    obtain ⟨tags, ht, h⟩ := bind_eq_ok_iff.1 h
    obtain ⟨hsummary, rfl⟩ := leaf_unlessEmpty_eq_ok_iff.1 hs
    obtain ⟨hdescription, rfl⟩ := leaf_unlessEmpty_eq_ok_iff.1 hd
    obtain ⟨vs, hvs, hall, rfl⟩ := mapM_ofTag_eq_ok_iff.1 ht
    refine ⟨⟨d.summary, d.description.html, vs⟩, by simp [Document.view?, hvs], ?_,
      Except.ok.inj h⟩
    exact List.forall_mem_cons.2 ⟨hsummary, List.forall_mem_cons.2 ⟨hdescription, hall⟩⟩
  · rintro ⟨v, hv, hall, rfl⟩
    obtain ⟨vs, hvs, rfl⟩ := Option.map_eq_some_iff.1 hv
    obtain ⟨hs, hall⟩ := List.forall_mem_cons.1 hall
    obtain ⟨hd, hall⟩ := List.forall_mem_cons.1 hall
    exact ⟨_, leaf_unlessEmpty_eq_ok_iff.2 ⟨hs, rfl⟩,
      bind_eq_ok_iff.2 ⟨_, leaf_unlessEmpty_eq_ok_iff.2 ⟨hd, rfl⟩,
        bind_eq_ok_iff.2 ⟨_, mapM_ofTag_eq_ok_iff.2 ⟨vs, hvs, hall, rfl⟩, rfl⟩⟩⟩

/-- A document is exported as its view, if it has one and its strings may stand in XML. -/
theorem toXml_eq_ok_iff {d : Document} {pretty : Bool} {x : String} :
    d.toXml pretty = .ok x ↔
      ∃ v, d.view? = some v ∧ v.IsCompatible ∧ v.element.text pretty = x := by
  rw [Document.toXml]
  constructor
  · intro h
    cases he : ofDocument d with
    | error e => simp [he, Except.map] at h
    | ok e =>
      obtain ⟨v, hv, hall, rfl⟩ := ofDocument_eq_ok_iff.1 he
      exact ⟨v, hv, hall, by simpa [he, Except.map] using h⟩
  · rintro ⟨v, hv, hall, rfl⟩
    rw [ofDocument_eq_ok_iff.2 ⟨v, hv, hall, rfl⟩]
    rfl

end DocComment.Xml
