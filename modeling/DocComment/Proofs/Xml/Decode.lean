import DocComment.Proofs.Text.Lines
import DocComment.Proofs.Xml.Export
import DocComment.Xml.Decode

/-! Exported documents are read back. Escaping leaves no character that ends what it stands in,
so every reader finds the end of its part in front of any rest; the layout is skipped, and
every tag is told from all others by its leaf. -/

namespace DocComment.Xml

open Text

/-! ### Escaped text -/

theorem unescape_cons {c : Char} (hc : c ≠ '&') (r : List Char) :
    unescape (c :: r) = c :: unescape r := by
  rw [unescape.eq_8] <;> rintro _ rfl <;> exact absurd rfl hc

theorem unescape_escapeTextChar (c : Char) (r : List Char) :
    unescape (escapeTextChar c ++ r) = c :: unescape r := by
  rw [escapeTextChar]
  split_ifs with h₁ h₂ h₃ h₄
  · rw [h₁]; rfl
  · rw [h₂]; rfl
  · rw [h₃]; rfl
  · rw [h₄]; rfl
  · exact unescape_cons h₁ r

theorem unescape_escapeValueChar (c : Char) (r : List Char) :
    unescape (escapeValueChar c ++ r) = c :: unescape r := by
  rw [escapeValueChar]
  split_ifs with h₁ h₂ h₃
  · rw [h₁]; rfl
  · rw [h₂]; rfl
  · rw [h₃]; rfl
  · exact unescape_escapeTextChar c r

theorem unescape_escapeText (s : List Char) : unescape (escapeText s) = s := by
  induction s with
  | nil => rfl
  | cons c s ih => rw [escapeText, List.flatMap_cons, unescape_escapeTextChar, ← escapeText, ih]

theorem unescape_escapeValue (s : List Char) : unescape (escapeValue s) = s := by
  induction s with
  | nil => rfl
  | cons c s ih =>
    rw [escapeValue, List.flatMap_cons, unescape_escapeValueChar, ← escapeValue, ih]

theorem notMem_escapeText (s : List Char) : '<' ∉ escapeText s := by
  intro h
  obtain ⟨c, -, h⟩ := List.mem_flatMap.1 h
  rw [escapeTextChar] at h
  split_ifs at h with h₁ h₂ h₃ h₄
  · exact absurd h (by decide)
  · exact absurd h (by decide)
  · exact absurd h (by decide)
  · exact absurd h (by decide)
  · exact h₂ (List.mem_singleton.1 h).symm

theorem notMem_escapeValue (s : List Char) : '"' ∉ escapeValue s := by
  intro h
  obtain ⟨c, -, h⟩ := List.mem_flatMap.1 h
  rw [escapeValueChar] at h
  split_ifs at h with h₁ h₂ h₃
  · exact absurd h (by decide)
  · exact absurd h (by decide)
  · exact absurd h (by decide)
  · rw [escapeTextChar] at h
    split_ifs at h
    · exact absurd h (by decide)
    · exact absurd h (by decide)
    · exact absurd h (by decide)
    · exact absurd h (by decide)
    · exact h₁ (List.mem_singleton.1 h).symm

/-! ### Leaves -/

theorem attribute?_append {name : String} (hn : '=' ∉ name.toList) (value : String)
    (r : List Char) :
    attribute? (name.toList ++ '=' :: '"' :: (escapeValue value.toList ++ '"' :: r)) =
      some ((name, value), r) := by
  obtain ⟨hname, hafter⟩ := span_append_stop hn
    (r := '=' :: '"' :: (escapeValue value.toList ++ '"' :: r)) rfl
  obtain ⟨hvalue, hrest⟩ := span_append_stop (notMem_escapeValue value.toList)
    (r := '"' :: r) rfl
  have hopen (q : List Char) : after? ['=', '"'] ('=' :: '"' :: q) = some q :=
    after?_append ['=', '"'] q
  have hclose : after? ['"'] ('"' :: r) = some r := after?_append ['"'] r
  simp only [attribute?, hname, hafter, hopen, hvalue, hrest, hclose, unescape_escapeValue,
    Option.bind_eq_bind, Option.bind_some, String.ofList_toList]

theorem attributes?_cons {s r : List Char} {a : String × String}
    (h : attribute? s = some (a, r)) :
    attributes? (' ' :: s) = (attributes? r).map fun q => (a :: q.1, q.2) := by
  rw [attributes?]
  split
  next b q hq =>
    obtain ⟨rfl, rfl⟩ := Prod.mk.inj (Option.some.inj (hq.symm.trans h))
    rfl
  next hq =>
    exact absurd (hq.symm.trans h) (by simp)

theorem attributes?_append {as : List (String × String)} (hn : ∀ a ∈ as, '=' ∉ a.1.toList)
    {r : List Char} (hr : r.head? ≠ some ' ') :
    attributes? (as.flatMap attributeText ++ r) = some (as, r) := by
  induction as with
  | nil =>
    rw [List.flatMap_nil, List.nil_append, attributes?]
    rintro q rfl
    exact hr rfl
  | cons a as ih =>
    obtain ⟨ha, has⟩ := List.forall_mem_cons.1 hn
    have hone := attribute?_append ha a.2 (as.flatMap attributeText ++ r)
    simp only [List.flatMap_cons, attributeText, List.cons_append, List.append_assoc,
      List.nil_append]
    rw [attributes?_cons hone, ih has]
    rfl

/-- The names of a leaf can be read. -/
structure Leaf.IsNamed (l : Leaf) : Prop where
  name : ∀ c ∈ l.name.toList, isElementPart c = true
  attributes : ∀ a ∈ l.attributes, '=' ∉ a.1.toList

/-- What follows the name of an element ends it. -/
theorem head?_attributes (as : List (String × String)) {r : List Char}
    (hr : ∀ c ∈ r.head?, isElementPart c = false) :
    ∀ c ∈ (as.flatMap attributeText ++ r).head?, isElementPart c = false := by
  cases as with
  | nil => exact hr
  | cons a as =>
    intro c hc
    have he : ' ' = c := by simpa [attributeText] using hc
    exact he ▸ rfl

theorem head?_printLeaf (name : String) (as : List (String × String)) (text : Option String)
    (r : List Char) : (Element.printLeaf name as text ++ r).head? = some '<' := by
  cases text <;> rfl

theorem leaf?_printLeaf {l : Leaf} (hl : l.IsNamed) (r : List Char) :
    leaf? (Element.printLeaf l.name l.attributes l.text ++ r) = some (l, r) := by
  obtain ⟨name, as, text⟩ := l
  have hopen (q : List Char) : after? ['<'] ('<' :: q) = some q := after?_append ['<'] q
  cases text with
  | none =>
    have hend : ∀ c ∈ ('/' :: '>' :: r).head?, isElementPart c = false := by
      simp [isElementPart]
    simp only [Element.printLeaf, opening, List.cons_append, List.append_assoc, List.nil_append,
      leaf?, hopen, Option.bind_eq_bind, Option.bind_some,
      takeWhile_append_stop hl.name (head?_attributes as hend),
      dropWhile_append_stop hl.name (head?_attributes as hend),
      attributes?_append hl.attributes (r := '/' :: '>' :: r) (by simp), String.ofList_toList]
  | some t =>
    have hend (q : List Char) : ∀ c ∈ ('>' :: q).head?, isElementPart c = false := by
      simp [isElementPart]
    obtain ⟨htext, hrest⟩ := span_append_stop (notMem_escapeText t.toList)
      (r := closing name ++ r) rfl
    simp only [Element.printLeaf, opening, List.cons_append, List.append_assoc, List.nil_append,
      leaf?, hopen, Option.bind_eq_bind, Option.bind_some,
      takeWhile_append_stop hl.name (head?_attributes as (hend _)),
      dropWhile_append_stop hl.name (head?_attributes as (hend _)),
      attributes?_append hl.attributes (r := '>' :: _) (by simp), htext, hrest, after?_append,
      unescape_escapeText, String.ofList_toList]

/-! ### Layout -/

theorem skipLayout_append (pretty : Bool) (level : Nat) {r : List Char}
    (hr : r.head? = some '<') :
    skipLayout ((if pretty then Element.newLine level else []) ++ r) = r := by
  refine dropWhile_append_stop ?_ (by simp [hr])
  cases pretty with
  | false => simp
  | true => simp [Element.newLine]

theorem leaves_of_leaf? {s r : List Char} {l : Leaf} (h : leaf? (skipLayout s) = some (l, r)) :
    leaves s = (l :: (leaves r).1, (leaves r).2) := by
  rw [leaves]
  split
  next m q hq =>
    obtain ⟨rfl, rfl⟩ := Prod.mk.inj (Option.some.inj (hq.symm.trans h))
    rfl
  next hq =>
    exact absurd (hq.symm.trans h) (by simp)

theorem leaves_of_none {s : List Char} (h : leaf? (skipLayout s) = none) :
    leaves s = ([], skipLayout s) := by
  rw [leaves]
  split
  next hq =>
    exact absurd (h.symm.trans hq) (by simp)
  next => rfl

/-- The closing behind the leaves is no leaf. -/
theorem leaf?_closing (r : List Char) : leaf? (closing "tags" ++ r) = none := by
  have hattributes : attributes? ('/' :: 't' :: 'a' :: 'g' :: 's' :: '>' :: r) =
      some ([], '/' :: 't' :: 'a' :: 'g' :: 's' :: '>' :: r) :=
    attributes?_append (List.forall_mem_nil _) (by simp)
  have hopen : after? ['<'] (closing "tags" ++ r) =
      some ('/' :: 't' :: 'a' :: 'g' :: 's' :: '>' :: r) := after?_append ['<'] _
  simp [leaf?, hopen, isElementPart, hattributes]

theorem leaves_printAll {ls : List Leaf} (hl : ∀ l ∈ ls, l.IsNamed) (pretty : Bool)
    (level outer : Nat) (r : List Char) :
    leaves (Element.printAll pretty level (ls.map Leaf.element) ++
      ((if pretty then Element.newLine outer else []) ++ (closing "tags" ++ r))) =
        (ls, closing "tags" ++ r) := by
  induction ls with
  | nil =>
    have hskip := skipLayout_append pretty outer (r := closing "tags" ++ r) rfl
    have hnone : leaf? (skipLayout ((if pretty then Element.newLine outer else []) ++
        (closing "tags" ++ r))) = none := by
      rw [hskip, leaf?_closing]
    rw [List.map_nil, Element.printAll, List.nil_append, leaves_of_none hnone, hskip]
  | cons l ls ih =>
    obtain ⟨h, hls⟩ := List.forall_mem_cons.1 hl
    have hprint : Element.print pretty level l.element =
        Element.printLeaf l.name l.attributes l.text := by rw [Leaf.element, Element.print]
    rw [List.map_cons, Element.printAll, hprint, List.append_assoc, List.append_assoc,
      leaves_of_leaf?, ih hls]
    rw [skipLayout_append pretty level (head?_printLeaf _ _ _ _)]
    exact leaf?_printLeaf h _

/-! ### Tags -/

/-- The names that are written can be read. -/
theorem isNamed_leaf (v : TagView) : v.leaf.IsNamed where
  name := by
    have hname : v.elementName.toList.all isElementPart = true := by
      cases v <;> rw [TagView.elementName] <;> rfl
    exact List.all_eq_true.1 hname
  attributes := by
    have hfields : ∀ a ∈ v.fields, '=' ∉ a.1.toList := by
      cases v <;> simp [TagView.fields, TagView.unknownFields]
    intro a ha
    obtain ⟨b, hb, he⟩ := List.mem_filterMap.1 ha
    obtain ⟨value, -, rfl⟩ := Option.map_eq_some_iff.1 he
    exact hfields b hb

theorem getD_unlessEmpty (s : String) : (unlessEmpty s).getD "" = s := by
  by_cases h : s = "" <;> simp [unlessEmpty, h]

/-- A tag is told from all others by its leaf. -/
theorem view?_leaf (v : TagView) : v.leaf.view? = some v := by
  cases v with
  | api | inheritDoc | internal => rfl
  | author name email => cases name <;> cases email <;> rfl
  | copyright html => exact congrArg (some ∘ TagView.copyright) (getD_unlessEmpty html)
  | todo html => exact congrArg (some ∘ TagView.todo) (getD_unlessEmpty html)
  | deprecated starting ending description => cases starting <;> cases ending <;> rfl
  | version number description => cases number <;> rfl
  | unknownEmpty name specialization => cases specialization <;> rfl
  | unknownDescription name specialization text =>
    have htext := congrArg (some ∘ TagView.unknownDescription name specialization)
      (getD_unlessEmpty text)
    cases specialization <;> exact htext
  | unknownInline name specialization nested =>
    have hnested := congrArg (some ∘ TagView.unknownInline name specialization)
      (getD_unlessEmpty nested)
    cases specialization <;> exact hnested

theorem mapM_view?_leaf (vs : List TagView) :
    (vs.map TagView.leaf).mapM Leaf.view? = some vs := by
  induction vs with
  | nil => rfl
  | cons v vs ih => simp [view?_leaf, ih]

theorem head?_print (name : String) (es : List Element) (pretty : Bool) (level : Nat)
    (r : List Char) : (Element.print pretty level (.parent name es) ++ r).head? = some '<' := by
  cases es <;> rfl

theorem tags?_print {ls : List Leaf} (hl : ∀ l ∈ ls, l.IsNamed) (pretty : Bool) (level : Nat)
    (r : List Char) :
    tags? (skipLayout ((if pretty then Element.newLine level else []) ++
      (Element.print pretty level (.parent "tags" (ls.map Leaf.element)) ++ r))) =
        some (ls, r) := by
  rw [skipLayout_append pretty level (head?_print _ _ _ _ _)]
  cases ls with
  | nil =>
    rw [List.map_nil, Element.print, tags?, after?_append]
  | cons l ls =>
    have hnone (q : List Char) : after? (opening "tags" [] ['/', '>'])
        (opening "tags" [] ['>'] ++ q) = none := rfl
    have hleaves := leaves_printAll hl pretty (level + 1) level r
    rw [List.map_cons] at hleaves
    simp only [List.map_cons, Element.print, List.append_assoc, tags?, hnone, after?_append,
      Option.bind_eq_bind, Option.bind_some, hleaves]

/-! ### Documents -/

theorem content?_printLeaf (name : String) (hn : ∀ c ∈ name.toList, isElementPart c = true)
    (pretty : Bool) (level : Nat) (s : String) (r : List Char) :
    content? name (skipLayout ((if pretty then Element.newLine level else []) ++
      (Element.printLeaf name [] (unlessEmpty s) ++ r))) = some (s, r) := by
  have hleaf := leaf?_printLeaf (l := ⟨name, [], unlessEmpty s⟩) ⟨hn, by simp⟩ r
  rw [skipLayout_append pretty level (head?_printLeaf _ _ _ _), content?]
  simp only [hleaf, Option.bind_eq_bind, Option.bind_some, Leaf.content, getD_unlessEmpty, if_true]

/-- The printed view, part by part; it does not matter how the tags are printed. -/
theorem toList_text (v : View) (pretty : Bool) :
    (v.element.text pretty).toList = opening "docblock" [] ['>'] ++
      ((if pretty then Element.newLine 1 else []) ++
      (Element.printLeaf "summary" [] (unlessEmpty v.summary) ++
      ((if pretty then Element.newLine 1 else []) ++
      (Element.printLeaf "description" [] (unlessEmpty v.description) ++
      ((if pretty then Element.newLine 1 else []) ++
      (Element.print pretty 1 (.parent "tags" ((v.tags.map TagView.leaf).map Leaf.element)) ++
      ((if pretty then Element.newLine 0 else []) ++
      (closing "docblock" ++ if pretty then ['\n'] else [])))))))) := by
  have hmap : v.tags.map (fun t => t.leaf.element) =
      (v.tags.map TagView.leaf).map Leaf.element := by
    rw [List.map_map]
    rfl
  rw [View.element, hmap]
  generalize Element.parent "tags" _ = tags
  simp [Element.text, Leaf.element, Element.print, Element.printAll]

/-- A printed view is read back. -/
theorem decode?_text (v : View) (pretty : Bool) : decode? (v.element.text pretty) = some v := by
  have hnamed : ∀ l ∈ v.tags.map TagView.leaf, l.IsNamed := by
    intro l hl
    obtain ⟨t, -, rfl⟩ := List.mem_map.1 hl
    exact isNamed_leaf t
  have hsummary := content?_printLeaf "summary" (List.all_eq_true.1 rfl) pretty 1 v.summary
  have hdescription :=
    content?_printLeaf "description" (List.all_eq_true.1 rfl) pretty 1 v.description
  have hclosing (r : List Char) : skipLayout ((if pretty then Element.newLine 0 else []) ++
      (closing "docblock" ++ r)) = closing "docblock" ++ r := skipLayout_append pretty 0 rfl
  rw [decode?, toList_text]
  simp only [after?_append, Option.bind_eq_bind, Option.bind_some, hsummary, hdescription,
    tags?_print hnamed, hclosing, mapM_view?_leaf]

/-- One reader gives the view of every document back from its XML, laid out or not; so
documents that are exported the same way, even if one of them is laid out, have one view. -/
theorem decode?_toXml {d : Document} {v : View} (hv : d.view? = some v) (hc : v.IsCompatible) :
    (∀ pretty, ∃ x, d.toXml pretty = .ok x ∧ decode? x = some v) ∧
      ∀ (d' : Document) (pretty pretty' : Bool) (x : String), d.toXml pretty = .ok x →
        d'.toXml pretty' = .ok x → d'.view? = some v := by
  refine ⟨fun pretty => ⟨_, toXml_eq_ok_iff.2 ⟨v, hv, hc, rfl⟩, decode?_text v pretty⟩, ?_⟩
  intro d' pretty pretty' x hx hx'
  obtain ⟨w, hw, -, rfl⟩ := toXml_eq_ok_iff.1 hx
  obtain ⟨w', hw', -, he⟩ := toXml_eq_ok_iff.1 hx'
  have hsame : some w' = some w := by
    rw [← decode?_text w' pretty', he, decode?_text w pretty]
  rw [hw', hsame, ← hw, hv]

/-- A document with markup of its own, fields that are empty or missing, and unknown tags that
are named like the parts of the export. -/
def markup : Document where
  summary := "\n  </summary>\r&amp;"
  description := ⟨"<", "<p>&lt;</p>"⟩
  tags := [.author (some "\"\n\t/>") none, .deprecated none (some "") (some ""),
    .deprecated none none none, .todo none, .unknownEmpty "tags" (some "none"),
    .unknownInline "summary" none "</tags>", .unknownDescription "a" none ""]

theorem decode?_toXml_markup :
    (∀ pretty, ∃ x, markup.toXml pretty = .ok x ∧ decode? x = markup.view?) ∧
      ∀ (d : Document) (pretty pretty' : Bool) (x : String), markup.toXml pretty = .ok x →
        d.toXml pretty' = .ok x → d.view? = markup.view? := by
  obtain ⟨v, hv⟩ : ∃ v, markup.view? = some v := ⟨_, rfl⟩
  have hc : v.IsCompatible := by
    obtain rfl := Option.some.inj hv
    decide
  rw [hv]
  exact decode?_toXml hv hc

end DocComment.Xml
