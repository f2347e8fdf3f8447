import DocComment.Occurrence.WellFormed
import DocComment.Proofs.Occurrence.Seam
import DocComment.Proofs.Occurrence.TagLine

/-! A lower bound on nesting reads the same tags. What it reads in braces is what a higher bound
reads there, unless that has too many levels; then every level fails, up to the tag itself,
which is left bare. Without signatures a body in braces stands on one line, and behind it or
behind the bare tag that line is over, so reading goes on at the same place. -/

namespace DocComment.Occurrence

open Text

/-! ### Levels of braces -/

theorem braceLevels_eq_zero {s : List Char} (h : s.getLast? ≠ some '\x7d') :
    braceLevels s = 0 := by
  rw [List.getLast?_eq_head?_reverse] at h
  rw [braceLevels, List.length_eq_zero_iff]
  cases hs : s.reverse with
  | nil => rfl
  | cons c r =>
    have hc : c ≠ '\x7d' := by simpa [hs] using h
    simp [hc]

theorem braceLevels_concat (s : List Char) : braceLevels (s ++ ['\x7d']) = braceLevels s + 1 := by
  simp [braceLevels]

/-- What stands before a text adds no level, when something else stands in the text. -/
theorem braceLevels_append (lead : List Char) {s : List Char} (h : ∃ c ∈ s, c ≠ '\x7d') :
    braceLevels (lead ++ s) = braceLevels s := by
  obtain ⟨c, hc, hne⟩ := h
  have hshort : ¬ (s.reverse.takeWhile (· = '\x7d')).length = s.reverse.length := by
    intro he
    have hall := List.takeWhile_eq_self_iff.1 ((List.takeWhile_prefix _).eq_of_length he)
    exact hne (by simpa using hall c (List.mem_reverse.2 hc))
  rw [braceLevels, List.reverse_append, List.takeWhile_append, if_neg hshort, braceLevels]

theorem braceLevels_closed (lead : List Char) {s : List Char} (h : ∃ c ∈ s, c ≠ '\x7d') :
    braceLevels (lead ++ (s ++ ['\x7d'])) = braceLevels s + 1 := by
  obtain ⟨c, hc, hne⟩ := h
  rw [braceLevels_append lead ⟨c, List.mem_append_left _ hc, hne⟩, braceLevels_concat]

/-- What a level of braces holds: no level of its own without braces inside, and something
other than a brace in any case. -/
theorem braceLevels_filled {s : List Char} (hs : s ≠ []) (h : s.getLast? ≠ some '\x7d') :
    braceLevels s = 0 ∧ ∃ c ∈ s, c ≠ '\x7d' := by
  refine ⟨braceLevels_eq_zero h, s.getLast hs, List.getLast_mem hs, fun hc => h ?_⟩
  rw [List.getLast?_eq_some_getLast hs, hc]

theorem getLast?_ne_of_notMem {s : List Char} {c : Char} (h : c ∉ s) : s.getLast? ≠ some c :=
  fun hc => h (List.mem_of_getLast? hc)

/-- A level of braces around a text has one level more than the text. -/
theorem levels_closed {n : Nat} (lead : List Char) {s : List Char} (hn : braceLevels s ≤ n)
    (hf : ∃ c ∈ s, c ≠ '\x7d')
    (hs : ∀ m, braceLevels s ≤ m → IsInline (m + 1) (lead ++ (s ++ ['\x7d']))) :
    braceLevels (lead ++ (s ++ ['\x7d'])) ≤ n + 1 ∧
      ∀ m, braceLevels (lead ++ (s ++ ['\x7d'])) ≤ m → IsInline m (lead ++ (s ++ ['\x7d'])) := by
  rw [braceLevels_closed lead hf]
  refine ⟨by omega, fun m hm => ?_⟩
  obtain ⟨m, rfl⟩ : ∃ k, m = k + 1 := ⟨m - 1, by omega⟩
  exact hs m (by omega)

/-- A tag in braces has at most the levels of its form, and every form with as many. -/
theorem IsInline.levels {n : Nat} {s : List Char} (hs : IsInline n s) :
    braceLevels s ≤ n ∧ ∀ m, braceLevels s ≤ m → IsInline m s := by
  induction hs with
  | @bare n name special hh =>
    have hlast := getLast?_ne_of_notMem (hh.notMem (c := '\x7d') (by decide) (by decide))
    obtain ⟨hzero, hf⟩ := braceLevels_filled (List.cons_ne_nil _ _) hlast
    exact levels_closed (n := n) ['\x7b'] (by omega) hf fun m _ => .bare hh
  | @description n name gap s special hh hg hn hs =>
    have hlast := getLast?_ne_of_notMem fun h => (hs.inside _ h).1 rfl
    obtain ⟨hzero, hf⟩ := braceLevels_filled hs.filled hlast
    have hall := levels_closed (n := n) ('\x7b' :: (headText name special ++ gap)) (by omega) hf
      fun m _ => by simpa using IsInline.description (n := m) hh hg hn hs
    simpa using hall
  | @signature n name gap s special hh hg hs =>
    have hlast : s.getLast? ≠ some '\x7d' := by simp [hs.getLast?]
    have hne : s ≠ [] := by rintro rfl; cases hs
    obtain ⟨hzero, hf⟩ := braceLevels_filled hne hlast
    have hall := levels_closed (n := n) ('\x7b' :: (headText name special ++ gap)) (by omega) hf
      fun m _ => by simpa using IsInline.signature (n := m) hh hg hs
    simpa using hall
  | @inline n name gap s special hh hg hs ih =>
    obtain ⟨t, ht, -⟩ := hs.braced
    have hf : ∃ c ∈ s, c ≠ '\x7d' := ⟨'\x7b', by simp [ht], by decide⟩
    have hall := levels_closed ('\x7b' :: (headText name special ++ gap)) ih.1 hf
      fun m hm => by simpa using IsInline.inline hh hg (ih.2 m hm)
    simpa using hall

/-- The levels of a tag in braces are the least number of levels that it has the form of. -/
theorem isInline_iff_levels {n m : Nat} {s : List Char} (hs : IsInline n s) :
    IsInline m s ↔ braceLevels s ≤ m :=
  ⟨fun h => h.levels.1, hs.levels.2 m⟩

/-! ### One tag under two bounds -/

section Limits

variable {n m : Nat}

/-- What one bound reads in braces is read under every bound that allows its levels. -/
theorem braced_of_isInline {s body q : List Char} (h : (braced n s).1 = some (body, q))
    (hb : IsInline m body) : (braced m s).1 = some (body, q) := by
  obtain ⟨t, rfl, hread⟩ := hb.braced
  have hs : s = t ++ q := (List.cons.inj (lossless_braced n s _ q h)).2
  rw [hs, hread]

/-- In braces a lower bound reads what a higher one reads, if it has few enough levels. -/
theorem braced_limited (h : n ≤ m) (s : List Char) :
    (braced n s).1 = (braced m s).1.filter fun p => braceLevels p.1 ≤ n := by
  have raise {p : List Char × List Char} (hp : (braced n s).1 = some p) :
      (braced m s).1 = some p ∧ braceLevels p.1 ≤ n := by
    have hform := isInline_of_braced hp
    have hlevels := hform.levels.1
    exact ⟨braced_of_isInline hp ((isInline_iff_levels hform).2 (by omega)), hlevels⟩
  ext p
  rw [Option.filter_eq_some_iff, decide_eq_true_eq]
  refine ⟨raise, fun ⟨hp, hlevels⟩ => ?_⟩
  exact braced_of_isInline hp ((isInline_iff_levels (isInline_of_braced hp)).2 hlevels)

theorem kind_of_description? {context : Context} {gap s : List Char} {d : Detail}
    (h : description? context gap s = some d) : d.kind = .description := by
  unfold description? at h
  split at h
  · exact absurd h (by simp)
  · cases context with
    | line => obtain ⟨p, -, rfl⟩ := Option.map_eq_some_iff.1 h; rfl
    | braces => obtain ⟨p, -, rfl⟩ := Option.map_eq_some_iff.1 h; rfl

/-- Behind a name only a body in braces depends on the bound. -/
theorem detail_limited (h : n ≤ m) (context : Context) (s : List Char) :
    (detail (braced n) context s).1 =
      (detail (braced m) context s).1.filter fun d =>
        d.kind ≠ .inline ∨ braceLevels d.body ≤ n := by
  unfold detail
  dsimp only
  split
  next d hd =>
    simp [Option.filter, kind_of_description? hd]
  next =>
    split
    · simp [Option.filter]
    · split
      next q _ =>
        rw [braced_limited h q]
        cases (braced m q).1 with
        | none => rfl
        | some p => by_cases hl : braceLevels p.1 ≤ n <;> simp [Option.filter, hl]
      next => rfl

/-- A body in braces without parentheses stands on one line. -/
theorem notMem_break_of_detail {context : Context} {s : List Char} {d : Detail}
    (hp : '(' ∉ s) (h : (detail (braced m) context s).1 = some d) (hk : d.kind = .inline) :
    '\n' ∉ d.written := by
  have hread := reads_of_detail h
  cases hread with
  | line => exact absurd hk (by simp)
  | braces => exact absurd hk (by simp)
  | signature => exact absurd hk (by simp)
  | @inline _ gap s body q hg hb =>
    have hbody : '(' ∉ body := fun hc => hp (by simp [lossless_braced m s body q hb, hc])
    have hbreak : '\n' ∉ body := by
      intro hc
      obtain ⟨x, y, hxy⟩ := List.append_of_mem hc
      exact hbody (by simp [hxy, ((isInline_of_braced hb).enclosed x y hxy).1])
    rw [List.mem_append, not_or]
    exact ⟨notMem_break_gap hg, hbreak⟩

/-- The line of a body in braces is over where it is over without the body. -/
theorem cutLine_of_detail {context : Context} {s : List Char} {d : Detail} (hp : '(' ∉ s)
    (h : (detail (braced m) context s).1 = some d) (hk : d.kind = .inline) :
    (cutLine d.rest).2 = (cutLine s).2 := by
  have hline := cutLine_append_of_notMem (notMem_break_of_detail hp h hk) d.rest
  rw [← eq_of_detail (lossless_braced m) h] at hline
  exact hline.symm

theorem limited_of_le {o : Occurrence} (h : o.kind ≠ .inline ∨ braceLevels o.body.toList ≤ n) :
    o.limited n = o := by
  rw [limited, if_neg]
  rintro ⟨hk, hlevels⟩
  rcases h with h | h
  · exact h hk
  · omega

theorem limited_of_lt {o : Occurrence} (hk : o.kind = .inline)
    (h : n < braceLevels o.body.toList) : o.limited n = { o with kind := .bare, body := "" } := by
  rw [limited, if_pos ⟨hk, by omega⟩]

/-- A lower bound finds the same tag, of which it may leave nothing but the head, and goes on
reading at the same place. -/
theorem tagAt?_limited (h : n ≤ m) {s : List Char} (hp : '(' ∉ s) {found : Found}
    (hfound : tagAt? m s = some found) :
    ∃ f, tagAt? n s = some f ∧ f.occurrence = found.occurrence.limited n ∧
      f.next = found.next := by
  unfold tagAt? tag? at hfound ⊢
  split at hfound
  next s =>
    obtain ⟨⟨name, r⟩, hname, rfl⟩ := Option.map_eq_some_iff.1 hfound
    have hr : '(' ∉ (splitSpecialization r).2 := by
      have hs := eq_of_name? hname
      rw [← splitSpecialization_append r] at hs
      exact fun hc => hp (by simp [hs, hc])
    have hlow := detail_limited h .line (splitSpecialization r).2
    dsimp only
    rw [hname, Option.map_some]
    refine ⟨_, rfl, ?_⟩
    dsimp only
    cases hm : detail (braced m) .line (splitSpecialization r).2 with
    | mk d stopped =>
      cases hn : detail (braced n) .line (splitSpecialization r).2 with
      | mk e stopped' =>
        rw [hm, hn] at hlow
        dsimp only at hlow ⊢
        subst hlow
        cases d with
        | none => exact ⟨(limited_of_le (.inl (by simp))).symm, rfl⟩
        | some d =>
          have hread : (detail (braced m) .line (splitSpecialization r).2).1 = some d :=
            congrArg Prod.fst hm
          by_cases hd : d.kind ≠ .inline ∨ braceLevels d.body ≤ n
          · rw [Option.filter_some, if_pos (by simpa using hd)]
            exact ⟨(limited_of_le (by simpa using hd)).symm, rfl⟩
          · rw [Option.filter_some, if_neg (by simpa using hd)]
            obtain ⟨hk, hlevels⟩ := not_or.1 hd
            rw [not_not] at hk
            constructor
            · exact (limited_of_lt (o := ⟨_, _, d.kind, String.ofList d.body⟩) hk
                (by simpa using hlevels)).symm
            · -- the bare tag leaves the body to the line that is passed over
              simp [Found.next, hk, cutLine_of_detail hr hread hk]
  next => exact absurd hfound (by simp)

theorem occurrences_limited (h : n ≤ m) {s : List Char} (hp : '(' ∉ s) :
    occurrences n s = (occurrences m s).map (limited n) := by
  induction s using reading_induction m with
  | nil => rw [occurrences_nil, occurrences_nil, List.map_nil]
  | skip s hs hnone ih =>
    have hnone' : tagAt? n s = none := by
      rw [← Option.not_isSome_iff_eq_none, isSome_tagAt?, ← isSome_tagAt? m, hnone]
      simp
    rw [occurrences_of_none hnone, occurrences_of_none hnone']
    have hrest : (cutLine s).2 <:+ s := ⟨_, cutLine_append s⟩
    exact ih fun hc => hp (hrest.subset hc)
  | read s found hfound ih =>
    obtain ⟨f, hf, ho, hnext⟩ := tagAt?_limited h hp hfound
    rw [occurrences_of_tagAt? hfound, occurrences_of_tagAt? hf, List.map_cons, ho, hnext]
    exact congrArg _ (ih fun hc => hp ((next_suffix hfound).subset hc))

end Limits

/-- Without signatures a bound on nesting changes nothing but the tags in braces that are too
deep for it, and of these it leaves the head. -/
theorem scan_limited {asked asked' : Int} (h : asked ≤ asked') {text : String}
    (hp : '(' ∉ text.toList) :
    scan asked text = (scan asked' text).map (limited (max 0 (min asked 62))) := by
  rw [scan_eq, scan_eq, ← Nesting.allowance_eq]
  exact occurrences_limited (Nesting.allowance_mono h) hp

/-- The bound 1 leaves the two levels behind `@a` alone and reads the one behind `@d`; a brace
in a description is no level. -/
theorem scan_limited_one_two :
    let text := "@a \x7b@b \x7b@c x\x7b\x7d\x7d y\n@d \x7b@e\x7d\n@f \x7bz\n\n@g h \x7b@i \x7b@j\x7d\x7d"
    scan 1 text = (scan 2 text).map (limited (max 0 (min 1 62))) ∧
      scan 1 text = [⟨"a", none, .bare, ""⟩, ⟨"d", none, .inline, "\x7b@e\x7d"⟩,
        ⟨"f", none, .bare, ""⟩, ⟨"g", none, .description, "h \x7b@i \x7b@j\x7d\x7d"⟩] := by
  refine ⟨scan_limited (by decide) (by simp), ?_⟩
  decide +kernel

end DocComment.Occurrence
