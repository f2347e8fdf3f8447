import DocComment.Html
import DocComment.Proofs.Text.Lines

/-! Escaped text in paragraphs. An ampersand is left only where it begins an entity, none of the
other characters with a meaning of their own is left, and so every paragraph is read back, with
the text that it was made of. -/

namespace DocComment.Html

open Text

variable {s : List Char} {c : Char}

/-! ### Escaped text -/

def isSpecial (c : Char) : Bool := c == '&' || c == '<' || c == '>' || c == '"' || c == '\''

/-- A character is written as it is or as an entity. -/
theorem escapeChar_cases (c : Char) :
    isSpecial c = false ∧ escapeChar c = [c] ∨ escapeChar c ∈ entities := by
  rw [escapeChar]
  split_ifs with hand hlt hgt hquote happos
  · exact Or.inr (by simp [entities])
  · exact Or.inr (by simp [entities])
  · exact Or.inr (by simp [entities])
  · exact Or.inr (by simp [entities])
  · exact Or.inr (by simp [entities])
  · exact Or.inl ⟨by simp [isSpecial, hand, hlt, hgt, hquote, happos], rfl⟩

/-- An entity has no other character with a meaning of its own than the ampersand it begins
with. -/
theorem exists_of_mem_entities {n : List Char} (h : n ∈ entities) :
    ∃ b, n = '&' :: b ∧ ∀ c ∈ b, isSpecial c = false := by
  have hentities : entities = [['&', 'a', 'm', 'p', ';'], ['&', 'l', 't', ';'],
    ['&', 'g', 't', ';'], ['&', 'q', 'u', 'o', 't', ';'], ['&', '#', 'x', '2', '7', ';']] := rfl
  rw [hentities] at h
  simp only [List.mem_cons, List.not_mem_nil, or_false] at h
  rcases h with rfl | rfl | rfl | rfl | rfl
  · exact ⟨_, rfl, by simp [isSpecial]⟩
  · exact ⟨_, rfl, by simp [isSpecial]⟩
  · exact ⟨_, rfl, by simp [isSpecial]⟩
  · exact ⟨_, rfl, by simp [isSpecial]⟩
  · exact ⟨_, rfl, by simp [isSpecial]⟩

theorem escape_cons (c : Char) (s : List Char) : escape (c :: s) = escapeChar c ++ escape s :=
  List.flatMap_cons

/-- Of the characters with a meaning of their own only ampersands are left. -/
theorem notMem_escape (hc : isSpecial c = true) (hand : c ≠ '&') : c ∉ escape s := by
  intro h
  have hplain {d : Char} (hd : isSpecial d = false) : c ≠ d := by
    rintro rfl
    exact absurd (hc.symm.trans hd) (by simp)
  obtain ⟨d, -, hd⟩ := List.mem_flatMap.1 h
  rcases escapeChar_cases d with ⟨hspecial, hone⟩ | hentity
  · rw [hone, List.mem_singleton] at hd
    exact hplain hspecial hd
  · obtain ⟨b, hb, hspecial⟩ := exists_of_mem_entities hentity
    rw [hb] at hd
    rcases List.mem_cons.1 hd with he | hd
    · exact hand he
    · exact hplain (hspecial c hd) rfl

/-- An ampersand that is left begins an entity. -/
theorem exists_entity_of_suffix {r : List Char} (h : '&' :: r <:+ escape s) :
    ∃ n ∈ entities, n <+: '&' :: r := by
  induction s with
  | nil => exact absurd (List.suffix_nil.1 h) (by simp)
  | cons c s ih =>
    obtain ⟨t, ht⟩ := h
    rw [escape_cons] at ht
    rcases List.append_eq_append_iff.1 ht with ⟨as, hc, hr⟩ | ⟨bs, -, hs⟩
    · cases as with
      | nil => exact ih ⟨[], hr⟩
      | cons a as =>
        obtain ⟨rfl, rfl⟩ := List.cons.inj hr
        -- the ampersand stands in what the character is written as, hence in front of it
        rcases escapeChar_cases c with ⟨hplain, hone⟩ | hentity
        · rw [hone] at hc
          have hm : '&' ∈ [c] := hc ▸ List.mem_append_right t (List.mem_cons_self)
          rw [← List.mem_singleton.1 hm] at hplain
          exact absurd hplain (by decide)
        · obtain ⟨b, hb, hplain⟩ := exists_of_mem_entities hentity
          rw [hb] at hc
          cases t with
          | nil => exact ⟨_, hentity, escape s, by rw [hb, hc]; rfl⟩
          | cons d t =>
            have hm : '&' ∈ b := (List.cons.inj hc).2 ▸ List.mem_append_right t List.mem_cons_self
            exact absurd (hplain _ hm) (by decide)
    · exact ih ⟨bs, hs.symm⟩

/-! ### Unescaped text -/

theorem unescape_cons (hc : c ≠ '&') (r : List Char) : unescape (c :: r) = c :: unescape r := by
  rw [unescape.eq_6] <;> rintro _ rfl <;> exact absurd rfl hc

theorem unescape_escapeChar (c : Char) (r : List Char) :
    unescape (escapeChar c ++ r) = c :: unescape r := by
  rw [escapeChar]
  split_ifs with hand hlt hgt hquote happos
  · rw [hand]; rfl
  · rw [hlt]; rfl
  · rw [hgt]; rfl
  · rw [hquote]; rfl
  · rw [happos]; rfl
  · exact unescape_cons hand r

theorem unescape_escape (s : List Char) : unescape (escape s) = s := by
  induction s with
  | nil => rfl
  | cons c s ih => rw [escape_cons, unescape_escapeChar, ih]

/-! ### Paragraphs -/

theorem paragraph?_paragraph (s r : List Char) :
    paragraph? (paragraph (escape s) ++ r) = some (s, r) := by
  have hopen (q : List Char) : after? "<p>".toList ("<p>".toList ++ q) = some q :=
    after?_append _ q
  have hclose : after? "</p>".toList ("</p>".toList ++ r) = some r := after?_append _ r
  have hnone : '<' ∉ escape s := notMem_escape rfl (by decide)
  obtain ⟨hcontent, hrest⟩ := span_append_stop hnone (r := "</p>".toList ++ r) rfl
  rw [paragraph?, paragraph, List.append_assoc, List.append_assoc, hopen, Option.bind_eq_bind,
    Option.bind_some, hcontent, hrest, hclose, unescape_escape]
  rfl

theorem paragraph?_nil : paragraph? [] = none := rfl

theorem paragraphs?_of_last {t : List Char} (h : paragraph? s = some (t, [])) :
    paragraphs? s = some [t] := by
  cases s with
  | nil => exact absurd (paragraph?_nil.symm.trans h) (by simp)
  | cons c s =>
    rw [paragraphs?]
    split <;> simp_all

theorem paragraphs?_of_break {t r : List Char} (h : paragraph? s = some (t, '\n' :: r)) :
    paragraphs? s = (paragraphs? r).map (t :: ·) := by
  cases s with
  | nil => exact absurd (paragraph?_nil.symm.trans h) (by simp)
  | cons c s =>
    rw [paragraphs?]
    split <;> simp_all

/-- Paragraphs are read back one by one, whatever texts they hold. -/
theorem paragraphs?_unlines (ts : List (List Char)) :
    paragraphs? (unlines (ts.map fun t => paragraph (escape t))) = some ts := by
  induction ts with
  | nil => rw [List.map_nil, unlines, paragraphs?]
  | cons t ts ih =>
    cases ts with
    | nil =>
      have hread := paragraph?_paragraph t []
      rw [List.append_nil] at hread
      exact paragraphs?_of_last hread
    | cons u us =>
      rw [List.map_cons, unlines_cons _ (by simp), paragraphs?_of_break (paragraph?_paragraph t _),
        ih]
      rfl

end DocComment.Html
