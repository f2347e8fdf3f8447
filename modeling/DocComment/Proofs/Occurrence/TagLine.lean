import DocComment.Occurrence.Scan
import DocComment.Proofs.Occurrence.Forms
import DocComment.Proofs.Occurrence.Pieces
import Mathlib.Data.List.Sort

/-! Every tag line is accounted for. A tag is read where a tag line begins, tags take up
separate parts of the text, and what is passed over holds no tag line. Inside a tag a line
can begin only in a signature, which opens a parenthesis before the break and closes it
behind. -/

namespace DocComment.Occurrence

open Text

/-! ### Breaks inside a body -/

/-- Each break has an opening parenthesis before it and a closing one behind it. -/
def Enclosed (s : List Char) : Prop := ∀ x y, s = x ++ '\n' :: y → '(' ∈ x ∧ ')' ∈ y

theorem Enclosed.of_notMem {s : List Char} (h : '\n' ∉ s) : Enclosed s := by
  rintro x y rfl
  exact absurd (by simp) h

theorem Enclosed.append {s t : List Char} (hs : Enclosed s) (ht : Enclosed t) :
    Enclosed (s ++ t) := by
  intro x y h
  rcases List.append_eq_append_iff.1 h with ⟨z, rfl, hz⟩ | ⟨z, hz, hy⟩
  · obtain ⟨hopen, hclose⟩ := ht z y hz
    exact ⟨List.mem_append_right s hopen, hclose⟩
  · cases z with
    | nil => exact absurd (ht [] y hy.symm).1 (by simp)
    | cons c z =>
      obtain ⟨rfl, rfl⟩ : '\n' = c ∧ y = z ++ t := by simpa using hy
      obtain ⟨hopen, hclose⟩ := hs x z hz
      exact ⟨hopen, List.mem_append_left t hclose⟩

theorem enclosed_parentheses (s : List Char) : Enclosed ('(' :: (s ++ [')'])) := by
  intro x y h
  cases x with
  | nil => exact absurd h (by simp)
  | cons c x =>
    obtain ⟨rfl, hs⟩ : '(' = c ∧ s ++ [')'] = x ++ '\n' :: y := by simpa using h
    have hlast := congrArg List.getLast? hs
    rw [List.getLast?_concat, List.getLast?_append_of_ne_nil x (by simp)] at hlast
    have hmem := List.mem_of_getLast? hlast.symm
    simp only [List.mem_cons] at hmem
    exact ⟨by simp, hmem.resolve_left (by decide)⟩

theorem IsSignature.enclosed {s : List Char} (hs : IsSignature s) : Enclosed s := by
  obtain ⟨x, rfl, -, -⟩ := hs.exists_wrap
  exact enclosed_parentheses x

theorem notMem_break_gap {gap : List Char} (hg : ∀ c ∈ gap, isGap c = true) : '\n' ∉ gap :=
  fun h => absurd (hg _ h) (by decide)

/-- A head holds nothing but its two marks and the characters of names. -/
theorem IsHead.notMem {name : List Char} {special : Option (List Char)} (hh : IsHead name special)
    {c : Char} (hc : isNamePart c = false) (hm : c ≠ '@' ∧ c ≠ ':') :
    c ∉ headText name special := by
  have out {p : Prop} (h : isNamePart c = true) : p := absurd h (by simp [hc])
  intro h
  have hpart := hh.special_part
  simp only [headText, List.mem_cons, List.mem_append] at h
  rcases h with h | h | h
  · exact hm.1 h
  · exact out (isNamePart_of_mem hh.name _ h)
  · cases special with
    | none => exact absurd h (by simp [specializationText])
    | some l =>
      simp only [specializationText, List.mem_cons] at h
      exact out (isNamePart_of_isSpecializationPart (hpart l rfl _ (h.resolve_left hm.2)))

theorem IsHead.notMem_break {name : List Char} {special : Option (List Char)}
    (hh : IsHead name special) : '\n' ∉ headText name special :=
  hh.notMem (by decide) (by decide)

theorem IsHead.notMem_lead {name gap : List Char} {special : Option (List Char)}
    (hh : IsHead name special) (hg : ∀ c ∈ gap, isGap c = true) :
    '\n' ∉ headText name special ++ gap := by
  rw [List.mem_append, not_or]
  exact ⟨hh.notMem_break, notMem_break_gap hg⟩

theorem IsInline.enclosed {n : Nat} {s : List Char} (hs : IsInline n s) : Enclosed s := by
  have opened {name gap t : List Char} {special : Option (List Char)} (hh : IsHead name special)
      (hg : ∀ c ∈ gap, isGap c = true) (ht : Enclosed t) :
      Enclosed ('\x7b' :: (headText name special ++ (gap ++ (t ++ ['\x7d'])))) := by
    have hbrace : Enclosed ['\x7b'] := .of_notMem (by simp)
    have hclose : Enclosed ['\x7d'] := .of_notMem (by simp)
    exact hbrace.append ((Enclosed.of_notMem hh.notMem_break).append
      ((Enclosed.of_notMem (notMem_break_gap hg)).append (ht.append hclose)))
  induction hs with
  | bare hh =>
    have hg : ∀ c ∈ ([] : List Char), isGap c = true := by simp
    exact opened hh hg (.of_notMem (s := []) (by simp))
  | description hh hg hn hs =>
    exact opened hh hg (.of_notMem fun h => (hs.inside _ h).2 rfl)
  | signature hh hg hs => exact opened hh hg hs.enclosed
  | inline hh hg hs ih => exact opened hh hg ih

/-! ### What a tag takes up -/

/-- A break behind a part without breaks. -/
theorem exists_of_append_break {lead t x y : List Char} (hl : '\n' ∉ lead)
    (h : lead ++ t = x ++ '\n' :: y) : ∃ z, x = lead ++ z ∧ t = z ++ '\n' :: y := by
  rcases List.append_eq_append_iff.1 h with ⟨z, hx, ht⟩ | ⟨z, hx, hy⟩
  · exact ⟨z, hx, ht⟩
  · cases z with
    | nil => exact ⟨[], by simpa using hx.symm, by simpa using hy.symm⟩
    | cons c z =>
      obtain ⟨rfl, -⟩ : '\n' = c ∧ y = z ++ t := by simpa using hy
      exact absurd (by simp [hx]) hl

/-- Breaks behind a text put no `@` behind a break. -/
theorem append_breaks_ne {body breaks : List Char} (ht : ¬ ['\n', '@'] <:+: body)
    (hb : ∀ c ∈ breaks, c = '\n') (x y : List Char) :
    body ++ breaks ≠ x ++ '\n' :: '@' :: y := by
  intro h
  have hsplit : body ++ breaks = x ++ ['\n', '@'] ++ y := by simpa using h
  rcases List.append_eq_append_iff.1 hsplit with ⟨z, hx, hz⟩ | ⟨z, hbody, -⟩
  · by_cases hne : z = []
    · rw [hne, List.append_nil] at hx
      exact ht ⟨x, [], by simp [hx]⟩
    · have hlast := congrArg List.getLast? hx
      rw [List.getLast?_append_of_ne_nil body hne,
        List.getLast?_append_of_ne_nil x (by simp)] at hlast
      have hmem : '@' ∈ breaks := by
        rw [hz]
        exact List.mem_append_left y (List.mem_of_getLast? hlast.symm)
      exact absurd (hb _ hmem) (by decide)
  · exact ht ⟨x, z, hbody.symm⟩

variable {allowed : Nat} {s : List Char} {found : Found}

/-- All but a description stands on the line where it begins, up to its body. -/
theorem exists_lead (h : tagAt? allowed s = some found)
    (hk : found.occurrence.kind ≠ .description) :
    ∃ lead, '\n' ∉ lead ∧ found.written = lead ++ found.occurrence.body.toList ∧
      Enclosed found.occurrence.body.toList := by
  cases readsTag_of_tag? h with
  | bare hh =>
    refine ⟨_, hh.notMem_break, ?_, ?_⟩
    · simp
    · exact .of_notMem (by simp)
  | detail hh hn hd =>
    simp only [String.toList_ofList]
    cases hd with
    | line => exact absurd rfl hk
    | signature hg hb => exact ⟨_, hh.notMem_lead hg, by simp, (signature?_sound hb).enclosed⟩
    | inline hg hb => exact ⟨_, hh.notMem_lead hg, by simp, (isInline_of_braced hb).enclosed⟩

/-- A description has a body that no tag line breaks off, and the breaks behind it. -/
theorem exists_breaks (h : tagAt? allowed s = some found)
    (hk : found.occurrence.kind = .description) :
    ∃ lead body breaks, '\n' ∉ lead ∧ found.written = lead ++ (body ++ breaks) ∧
      ¬ ['\n', '@'] <:+: body ∧ (∀ c ∈ breaks, c = '\n') ∧ (found.rest ≠ [] → breaks ≠ []) := by
  cases readsTag_of_tag? h with
  | bare => exact absurd hk (by simp)
  | detail hh hn hd =>
    cases hd with
    | signature => exact absurd hk (by simp)
    | inline => exact absurd hk (by simp)
    | @line gap t body q hg hgap ht ho hb =>
      obtain ⟨-, htag, hq⟩ := lineDescription?_sound hb
      refine ⟨_, body, q.takeWhile (· = '\n'), hh.notMem_lead hg, by simp, htag,
        fun c hc => by simpa using List.mem_takeWhile_imp hc, fun hrest => ?_⟩
      rcases hq with rfl | hq
      · exact absurd rfl hrest
      · obtain ⟨r, rfl⟩ := List.head?_eq_some_iff.1 hq
        simp

/-- No line of a description begins with `@`. -/
theorem written_ne_of_description (h : tagAt? allowed s = some found)
    (hk : found.occurrence.kind = .description) (x y : List Char) :
    found.written ≠ x ++ '\n' :: '@' :: y := by
  intro hw
  obtain ⟨lead, body, breaks, hl, hwritten, htag, hbreaks, -⟩ := exists_breaks h hk
  obtain ⟨z, -, hz⟩ := exists_of_append_break hl (hwritten.symm.trans hw)
  exact append_breaks_ne htag hbreaks z y hz

/-- A description that something follows ends with a break. -/
theorem getLast?_written (h : tagAt? allowed s = some found)
    (hk : found.occurrence.kind = .description) (hrest : found.rest ≠ []) :
    found.written.getLast? = some '\n' := by
  obtain ⟨lead, body, breaks, -, hwritten, -, hbreaks, hne⟩ := exists_breaks h hk
  rw [hwritten, ← List.append_assoc, List.getLast?_append_of_ne_nil _ (hne hrest),
    List.getLast?_eq_getLast_of_ne_nil (hne hrest)]
  exact congrArg some (hbreaks _ (List.getLast_mem _))

/-- A line of a tag that begins with `@` stands in a signature. -/
theorem hides_of_written (h : tagAt? allowed s = some found) {x y : List Char}
    (hw : found.written = x ++ '\n' :: '@' :: y) (p : Nat) :
    Hides (p, found) (p + (x.length + 1)) := by
  have hk : found.occurrence.kind ≠ .description := fun hk => written_ne_of_description h hk x y hw
  obtain ⟨lead, hl, hwritten, hbody⟩ := exists_lead h hk
  obtain ⟨z, rfl, hz⟩ := exists_of_append_break hl (hwritten.symm.trans hw)
  obtain ⟨hopen, hclose⟩ := hbody z ('@' :: y) hz
  refine ⟨?_, ?_, lead, z ++ ['\n'], '@' :: y, ?_, ?_, ?_, ?_, hclose⟩
  · cases hkind : found.occurrence.kind with
    | bare =>
      have hb := isBody_of_tagAt? h hk
      rw [hkind] at hb
      exact absurd (hz.symm.trans hb) (by simp)
    | description => exact absurd hkind hk
    | signature => exact Or.inl rfl
    | inline => exact Or.inr rfl
  · simp only [hw, List.length_append, List.length_cons]
    omega
  · simp [hw]
  · simp [hz]
  · simp [Nat.add_assoc]
  · exact List.mem_append_left _ hopen

/-- Behind all but a description the line goes on. -/
theorem getLast?_written_ne (h : tagAt? allowed s = some found)
    (hk : found.occurrence.kind ≠ .description) : found.written.getLast? ≠ some '\n' := by
  intro hlast
  obtain ⟨x, hx⟩ := List.getLast?_eq_some_iff.1 hlast
  obtain ⟨lead, hl, hwritten, hbody⟩ := exists_lead h hk
  obtain ⟨z, -, hz⟩ := exists_of_append_break hl (hwritten.symm.trans hx)
  exact absurd (hbody z [] hz).2 (by simp)

/-! ### Tag lines among pieces -/

/-- A text behind which a line begins. -/
def EndsLine (s : List Char) : Prop := ∀ c ∈ s.getLast?, c = '\n'

theorem endsLine_append (s : List Char) {t : List Char} (ht : t ≠ []) :
    EndsLine (s ++ t) ↔ t.getLast? = some '\n' := by
  rw [EndsLine, List.getLast?_append_of_ne_nil s ht]
  cases hl : t.getLast? with
  | none => exact absurd (List.getLast?_eq_none_iff.1 hl) ht
  | some c => simp

/-- A tag is read exactly where a text begins as a tag does. -/
theorem isSome_tagAt? (allowed : Nat) (s : List Char) :
    (tagAt? allowed s).isSome = beginsTag s := by
  cases s with
  | nil => rfl
  | cons c s =>
    by_cases hc : c = '@'
    · subst hc
      cases s with
      | nil => rfl
      | cons d s =>
        by_cases hd : isNameStart d = true
        · simp [tagAt?, tag?, name?, beginsTag, hd]
        · simp [tagAt?, tag?, name?, beginsTag, hd]
    · simp [tagAt?, tag?, beginsTag, hc]

theorem exists_of_beginsTag {z t : List Char} (hz : z ≠ []) (h : beginsTag (z ++ t) = true) :
    ∃ r, z = '@' :: r := by
  cases z with
  | nil => exact absurd rfl hz
  | cons c z =>
    by_cases hc : c = '@'
    · exact ⟨z, by rw [hc]⟩
    · exact absurd h (by simp [beginsTag, hc])

/-- Between two texts a part holds no beginning of a tag line. -/
def NoTagLine (before part behind : List Char) : Prop :=
  ∀ x y, part = x ++ y → y ≠ [] → EndsLine (before ++ x) → beginsTag (y ++ behind) = false

/-- Behind a text, a tag is read where each tag line begins. -/
def Laid (allowed : Nat) : List Char → List Piece → Prop
  | _, [] => True
  | before, .tag found :: ps =>
    EndsLine before ∧ tagAt? allowed (found.written ++ ps.flatMap Piece.text) = some found ∧
      Laid allowed (before ++ found.written) ps
  | before, .other part :: ps =>
    NoTagLine before part (ps.flatMap Piece.text) ∧ Laid allowed (before ++ part) ps

/-- The rest of a line begins no line, and the line itself only where it stands. -/
theorem noTagLine_cutLine {before : List Char} (h : EndsLine before → beginsTag s = false) :
    NoTagLine before (cutLine s).1 (cutLine s).2 := by
  intro x y hxy hy hend
  by_cases hx : x = []
  · subst hx
    rw [List.append_nil] at hend
    rw [List.nil_append] at hxy
    rw [← hxy, cutLine_append]
    exact h hend
  · rw [endsLine_append before hx] at hend
    exact absurd (List.mem_of_getLast? hend) (notMem_break_of_cutLine hxy hy)

/-- Behind a line the next one begins. -/
theorem endsLine_cutLine (before : List Char) (h : (cutLine s).2 ≠ []) :
    EndsLine (before ++ (cutLine s).1) := by
  have hlast := getLast?_cutLine h
  rw [endsLine_append before fun hnil => by simp [hnil] at hlast]
  exact hlast

theorem laid_pieces (allowed : Nat) {s before : List Char} (h : s ≠ [] → EndsLine before) :
    Laid allowed before (pieces allowed s) := by
  induction s using reading_induction allowed generalizing before with
  | nil =>
    rw [pieces_nil]
    trivial
  | skip s hs hnone ih =>
    rw [pieces_of_none hs hnone]
    constructor
    · rw [text_pieces]
      refine noTagLine_cutLine fun _ => ?_
      rw [← isSome_tagAt? allowed, hnone]
      rfl
    · exact ih (endsLine_cutLine before)
  | read s found hfound ih =>
    have hs : s ≠ [] := by
      rintro rfl
      exact absurd hfound (by simp [tagAt?_nil])
    have hsplit := eq_of_tagAt? hfound
    rw [pieces_of_tagAt? hfound]
    rw [Found.next] at ih
    split_ifs at ih ⊢ with hk
    · refine ⟨h hs, by rwa [text_pieces, ← hsplit], ih fun hrest => ?_⟩
      rw [endsLine_append before (written_ne_nil_of_tag? hfound)]
      exact getLast?_written hfound hk hrest
    · refine ⟨h hs, ?_, ?_, ih (endsLine_cutLine _)⟩
      · rwa [List.flatMap_cons, text_pieces, Piece.text, cutLine_append, ← hsplit]
      · -- behind the tag its line goes on, and the next line begins behind the cut
        rw [text_pieces]
        refine noTagLine_cutLine fun hend => ?_
        rw [endsLine_append before (written_ne_nil_of_tag? hfound)] at hend
        exact absurd hend (getLast?_written_ne hfound hk)

theorem laid_text (allowed : Nat) (s : List Char) : Laid allowed [] (pieces allowed s) :=
  laid_pieces allowed fun _ => by simp [EndsLine]

/-! ### Positions -/

theorem tagsAmong_tag (p : Nat) (found : Found) (ps : List Piece) :
    tagsAmong p (.tag found :: ps) =
      (p, found) :: tagsAmong (p + found.written.length) ps := rfl

theorem tagsAmong_other (p : Nat) (part : List Char) (ps : List Piece) :
    tagsAmong p (.other part :: ps) = tagsAmong (p + part.length) ps := rfl

theorem occurrence_tagsAmong (p : Nat) (ps : List Piece) :
    (tagsAmong p ps).map (·.2.occurrence) = ps.filterMap Piece.occurrence? := by
  induction ps generalizing p with
  | nil => rfl
  | cons piece ps ih =>
    cases piece with
    | tag found =>
      rw [tagsAmong_tag, List.map_cons, ih]
      rfl
    | other part =>
      rw [tagsAmong_other, ih]
      rfl

theorem le_of_mem_tagsAmong {p : Nat} {ps : List Piece} {tag : Nat × Found}
    (h : tag ∈ tagsAmong p ps) : p ≤ tag.1 := by
  induction ps generalizing p with
  | nil => exact absurd h (by simp [tagsAmong, located])
  | cons piece ps ih =>
    cases piece with
    | tag found =>
      rw [tagsAmong_tag, List.mem_cons] at h
      rcases h with rfl | h
      · exact le_rfl
      · have := ih h
        omega
    | other part =>
      rw [tagsAmong_other] at h
      have := ih h
      omega

/-- No tag takes up what another one does. -/
theorem pairwise_tagsAmong (p : Nat) (ps : List Piece) :
    (tagsAmong p ps).Pairwise fun t u => t.1 + t.2.written.length ≤ u.1 := by
  induction ps generalizing p with
  | nil => exact List.Pairwise.nil
  | cons piece ps ih =>
    cases piece with
    | tag found =>
      rw [tagsAmong_tag]
      exact (ih _).cons fun u hu => le_of_mem_tagsAmong hu
    | other part =>
      rw [tagsAmong_other]
      exact ih _

variable {before : List Char} {ps : List Piece}

/-- A tag is read at the beginning of a line, in the text that stands there. -/
theorem Laid.read (h : Laid allowed before ps) {tag : Nat × Found}
    (ht : tag ∈ tagsAmong before.length ps) :
    ∃ x y, before ++ ps.flatMap Piece.text = x ++ (tag.2.written ++ y) ∧ x.length = tag.1 ∧
      EndsLine x ∧ tagAt? allowed (tag.2.written ++ y) = some tag.2 := by
  induction ps generalizing before with
  | nil => exact absurd ht (by simp [tagsAmong, located])
  | cons piece ps ih =>
    cases piece with
    | tag found =>
      obtain ⟨hend, hread, hrest⟩ := h
      rw [tagsAmong_tag, ← List.length_append, List.mem_cons] at ht
      rcases ht with rfl | ht
      · exact ⟨before, _, rfl, rfl, hend, hread⟩
      · obtain ⟨x, y, htext, hx⟩ := ih hrest ht
        exact ⟨x, y, by rw [← htext, List.append_assoc]; rfl, hx⟩
    | other part =>
      rw [tagsAmong_other, ← List.length_append] at ht
      obtain ⟨x, y, htext, hx⟩ := ih h.2 ht
      exact ⟨x, y, by rw [← htext, List.append_assoc]; rfl, hx⟩

/-- Where a tag line begins a tag is read, or a signature of a tag goes over it. -/
theorem Laid.accounts (h : Laid allowed before ps) {x y : List Char}
    (hxy : ps.flatMap Piece.text = x ++ y) (hx : EndsLine (before ++ x))
    (hy : beginsTag y = true) :
    ∃ tag ∈ tagsAmong before.length ps,
      tag.1 = (before ++ x).length ∨ Hides tag (before ++ x).length := by
  induction ps generalizing before x with
  | nil =>
    obtain ⟨-, rfl⟩ := List.append_eq_nil_iff.1 hxy.symm
    exact absurd hy (by simp [beginsTag])
  | cons piece ps ih =>
    -- a line that begins behind the first piece is one of the others
    have later {part z : List Char} (hp : Laid allowed (before ++ part) ps) (hz : x = part ++ z)
        (hps : ps.flatMap Piece.text = z ++ y) :
        ∃ tag ∈ tagsAmong (before.length + part.length) ps,
          tag.1 = (before ++ x).length ∨ Hides tag (before ++ x).length := by
      subst hz
      rw [← List.append_assoc] at hx ⊢
      rw [← List.length_append]
      exact ih hp hps hx
    cases piece with
    | tag found =>
      obtain ⟨-, hread, hrest⟩ := h
      have hsplit : found.written ++ ps.flatMap Piece.text = x ++ y := hxy
      rw [tagsAmong_tag]
      rcases List.append_eq_append_iff.1 hsplit with ⟨z, hz, hps⟩ | ⟨z, hz, hps⟩
      · obtain ⟨tag, htag, hp⟩ := later hrest hz hps
        exact ⟨tag, List.mem_cons_of_mem _ htag, hp⟩
      · by_cases hnil : z = []
        · subst hnil
          obtain ⟨tag, htag, hp⟩ := later (z := []) hrest (by simpa using hz.symm) hps.symm
          exact ⟨tag, List.mem_cons_of_mem _ htag, hp⟩
        · refine ⟨_, List.mem_cons_self, ?_⟩
          by_cases hxnil : x = []
          · exact Or.inl (by simp [hxnil])
          · rw [endsLine_append before hxnil] at hx
            obtain ⟨w, rfl⟩ := List.getLast?_eq_some_iff.1 hx
            obtain ⟨z, rfl⟩ := exists_of_beginsTag hnil (hps ▸ hy)
            refine Or.inr ?_
            rw [List.length_append, List.length_append]
            exact hides_of_written hread (by simpa using hz) before.length
    | other part =>
      obtain ⟨hno, hrest⟩ := h
      have hsplit : part ++ ps.flatMap Piece.text = x ++ y := hxy
      rw [tagsAmong_other]
      rcases List.append_eq_append_iff.1 hsplit with ⟨z, hz, hps⟩ | ⟨z, hz, hps⟩
      · exact later hrest hz hps
      · by_cases hnil : z = []
        · subst hnil
          exact later (z := []) hrest (by simpa using hz.symm) hps.symm
        · rw [hps, hno x z hz hnil hx] at hy
          exact absurd hy (by decide)

theorem isTagLine_iff {s : List Char} {p : Nat} :
    isTagLine s p = true ↔
      ∃ x y, s = x ++ y ∧ x.length = p ∧ EndsLine x ∧ beginsTag y = true := by
  have hstart {x y : List Char} : isLineStart (x ++ y) x.length = true ↔ EndsLine x := by
    rcases List.eq_nil_or_concat x with rfl | ⟨l, c, rfl⟩
    · simp [isLineStart, EndsLine]
    · simp [isLineStart, EndsLine]
  rw [isTagLine, Bool.and_eq_true]
  constructor
  · rintro ⟨hline, htag⟩
    have hp : p ≤ s.length := by
      by_contra hgt
      rw [List.drop_eq_nil_of_le (by omega)] at htag
      exact absurd htag (by simp [beginsTag])
    have hlen : (s.take p).length = p := List.length_take_of_le hp
    refine ⟨s.take p, s.drop p, (List.take_append_drop p s).symm, hlen, ?_, htag⟩
    rwa [← hstart (y := s.drop p), List.take_append_drop, hlen]
  · rintro ⟨x, y, rfl, rfl, hline, htag⟩
    rw [List.drop_left]
    exact ⟨hstart.2 hline, htag⟩

/-- The name of a tag is the longest one behind its `@`. -/
theorem name_of_tagAt? (h : tagAt? allowed s = some found) :
    found.occurrence.name.toList = (s.drop 1).takeWhile isNamePart := by
  have hread {name r : List Char} {special : Option (List Char)} (hh : IsHead name special)
      (hn : ∀ c ∈ (specializationText special ++ r).head?, isNamePart c = false) :
      name = ((headText name special ++ r).drop 1).takeWhile isNamePart := by
    have hname := isNamePart_of_mem hh.name
    simpa [headText] using (takeWhile_append_stop hname hn).symm
  cases readsTag_of_tag? h with
  | bare hh hn => simpa only [String.toList_ofList] using hread hh hn
  | detail hh hn => simpa only [String.toList_ofList] using hread hh hn

theorem mem_tagLines {s : List Char} {p : Nat} : p ∈ tagLines s ↔ isTagLine s p = true := by
  rw [tagLines, List.mem_filter, List.mem_range, and_iff_right_iff_imp]
  intro h
  obtain ⟨x, y, rfl, rfl, -, hy⟩ := isTagLine_iff.1 h
  cases y with
  | nil => exact absurd hy (by simp [beginsTag])
  | cons c y => simp

/-- A tag stands on a tag line, takes up the text there and has the longest name there. -/
theorem tagsOf_read {tag : Nat × Found} (h : tag ∈ tagsOf allowed s) :
    isTagLine s tag.1 = true ∧ tag.2.written <+: s.drop tag.1 ∧
      tag.2.occurrence.name.toList = (s.drop (tag.1 + 1)).takeWhile isNamePart := by
  obtain ⟨x, y, htext, hx, hend, hread⟩ := (laid_text allowed s).read h
  rw [List.nil_append, text_pieces] at htext
  have hdrop : s.drop tag.1 = tag.2.written ++ y := by rw [htext, ← hx, List.drop_left]
  refine ⟨isTagLine_iff.2 ⟨x, _, htext, hx, hend, ?_⟩, hdrop ▸ List.prefix_append _ y, ?_⟩
  · rw [← isSome_tagAt? allowed, hread]
    rfl
  · rw [← List.drop_drop, hdrop]
    exact name_of_tagAt? hread

/-- Tags stand in order, and each takes up at least its `@`. -/
theorem tagsOf_pairwise (allowed : Nat) (s : List Char) :
    (tagsOf allowed s).Pairwise fun t u => t.1 < u.1 ∧ t.1 + t.2.written.length ≤ u.1 := by
  refine (pairwise_tagsAmong 0 (pieces allowed s)).imp_of_mem fun ht _ hle => ⟨?_, hle⟩
  obtain ⟨x, y, -, -, -, hread⟩ := (laid_text allowed s).read ht
  have := List.length_pos_iff.2 (written_ne_nil_of_tag? hread)
  omega

theorem tagsOf_accounts (allowed : Nat) {p : Nat} (h : isTagLine s p = true) :
    p ∈ (tagsOf allowed s).map Prod.fst ∨ ∃ tag ∈ tagsOf allowed s, Hides tag p := by
  obtain ⟨x, y, rfl, rfl, hx, hy⟩ := isTagLine_iff.1 h
  have htext := text_pieces allowed (x ++ y)
  obtain ⟨tag, htag, hp | hp⟩ := (laid_text allowed (x ++ y)).accounts htext hx hy
  · exact Or.inl (List.mem_map.2 ⟨tag, htag, hp⟩)
  · exact Or.inr ⟨tag, htag, hp⟩

theorem Hides.mem {tag : Nat × Found} {p : Nat} (h : Hides tag p)
    (ht : tag ∈ tagsOf allowed s) : '(' ∈ s := by
  obtain ⟨lead, before, behind, hwritten, -, -, hopen, -⟩ := h.enclosed
  have hpre := (tagsOf_read ht).2.1
  refine List.mem_of_mem_drop (hpre.subset ?_)
  simp [hwritten, hopen]

/-- Every occurrence begins a line, in order and apart from the others, with the longest name
there. A tag line that begins none stands inside an earlier signature, so without parentheses
there is one occurrence for each tag line. -/
theorem scan_accounts_for_tagLines (asked : Int) (text : String) :
    let s := text.toList
    let tags := tagsOf (Nesting.allowance asked) s
    scan asked text = tags.map (·.2.occurrence) ∧
      (∀ tag ∈ tags, isTagLine s tag.1 = true ∧ tag.2.written <+: s.drop tag.1 ∧
        tag.2.occurrence.name.toList = (s.drop (tag.1 + 1)).takeWhile isNamePart) ∧
      (tags.Pairwise fun t u => t.1 < u.1 ∧ t.1 + t.2.written.length ≤ u.1) ∧
      (∀ p, isTagLine s p = true →
        p ∈ tags.map Prod.fst ∨ ∃ tag ∈ tags, Hides tag p) ∧
      ('(' ∉ s → tags.map Prod.fst = tagLines s) := by
  refine ⟨(occurrence_tagsAmong 0 _).symm, fun tag => tagsOf_read, tagsOf_pairwise _ _,
    fun p => tagsOf_accounts _, fun hopen => ?_⟩
  have horder := (tagsOf_pairwise (Nesting.allowance asked) text.toList).imp And.left
  refine List.Pairwise.eq_of_mem_iff (List.pairwise_map.2 horder)
    (List.pairwise_lt_range.filter _) fun p => ?_
  rw [mem_tagLines]
  constructor
  · rintro hp
    obtain ⟨tag, htag, rfl⟩ := List.mem_map.1 hp
    exact (tagsOf_read htag).1
  · intro hp
    rcases tagsOf_accounts (Nesting.allowance asked) hp with hp | ⟨tag, htag, hhides⟩
    · exact hp
    · exact absurd (hhides.mem htag) hopen

/-- The tag line `@b` stands inside the signature of `@a`; without a parenthesis both tag
lines of a text begin an occurrence. -/
theorem tagLines_hidden_and_read :
    (∃ tag ∈ tagsOf 2 "@a \x7b@x (\n@b)\x7d\n@c".toList, Hides tag 9) ∧
      (tagsOf 2 "?\n@a b\n c\n\n@d\n@ e".toList).map Prod.fst = [2, 11] := by
  constructor
  · have hline : isTagLine "@a \x7b@x (\n@b)\x7d\n@c".toList 9 = true := by decide +kernel
    obtain ⟨-, -, -, haccounts, -⟩ :=
      scan_accounts_for_tagLines 2 "@a \x7b@x (\n@b)\x7d\n@c"
    refine (haccounts 9 hline).resolve_left fun hread => absurd hread ?_
    decide +kernel
  · obtain ⟨-, -, -, -, hread⟩ := scan_accounts_for_tagLines 2 "?\n@a b\n c\n\n@d\n@ e"
    refine (hread (by simp)).trans ?_
    decide +kernel

end DocComment.Occurrence
