import DocComment.Proofs.TypeExpr.Completeness
import DocComment.Proofs.TypeExpr.Walk

/-! Every production leaves its cursor in order. Each performs a rule, and a rule takes at least one
character when it finds a type; it knows neither the position nor what is in front of it, so a
production does not depend on them. What was kept correctly is what the rules would have given. -/

namespace DocComment.TypeExpr

open Text Grammar

variable {bound : Int} {text : List Char}

theorem Production.walk_follows {level : Nat} {walks : Stop → Walk (Option TypeExpr)}
    (hn : ∀ stop, Follows bound text level (walks stop)
      (nested .direct (bound - level).toNat stop)) (production : Production) :
    Follows bound text level (production.walk text walks)
      (production.rule .direct (nested .direct (bound - level).toNat)) := by
  cases production with
  | expression stop => exact expression_follows hn stop
  | type => exact type_follows hn
  | keyword => exact keyword_follows
  | className => exact className_follows
  | array => exact array_follows hn
  | leveled => exact leveled_follows hn
  | group => exact group_follows hn
  | generic => exact generic_follows hn
  | afresh rule =>
    cases rule with
    | group => exact readGroup_follows hn
    | generic => exact readGeneric_follows hn

theorem Production.read_performs (bound : Int) (production : Production) {c : Cursor}
    {s : List Char} (hs : IsRest text c.position s) :
    Performs bound text c.level c.position s (production.read bound text)
      (production.rule .direct (nested .direct (bound - c.level).toNat) s) := by
  intro d hd hl hk
  have hrun : (production.read bound text).run d =
      (production.walk text (Walk.nested text bound (bound - d.level).toNat)).run d := by
    rw [Production.read, StateT.run_bind, StateT.run_get, pure_bind]
  rw [hrun, hl]
  exact production.walk_follows (fun stop => nested_follows bound text _ c.level stop rfl) _ s hs d
    hd hl hk

/-- A production takes at least one character. -/
theorem Production.exists_of_rule {allowed : Nat} {production : Production} {s r : List Char}
    {t : TypeExpr}
    (h : (production.rule .direct (nested .direct allowed) s).run = some (t, r)) :
    ∃ w, w ≠ [] ∧ s = w ++ r := by
  have hn := nested_sound allowed
  have hsingle (h : (Rule.type .direct (nested .direct allowed) s).run = some (t, r)) :
      ∃ w, w ≠ [] ∧ s = w ++ r := by
    obtain ⟨n, w, -, hs, hw⟩ := Rule.type_sound hn h
    exact ⟨w, hw.starts.ne_nil, hs⟩
  have hgroup (h : (Rule.group .direct (nested .direct allowed) s).run = some (t, r)) :
      ∃ w, w ≠ [] ∧ s = w ++ r := by
    obtain ⟨n, w, -, hs, hw, -⟩ := Rule.group_sound hn h
    exact ⟨w, hw.starts.ne_nil, hs⟩
  have hgeneric (h : (Rule.generic .direct (nested .direct allowed) s).run = some (t, r)) :
      ∃ w, w ≠ [] ∧ s = w ++ r := by
    obtain ⟨n, w, c, q, -, hs, -, hw⟩ := Rule.generic_sound hn h
    exact ⟨w, hw.starts.ne_nil, hs⟩
  cases production with
  | expression stop =>
    obtain ⟨⟨n, w, -, hs, u, us, hw, -⟩, -⟩ := Rule.expression_sound hn h
    exact ⟨w, hw.starts.ne_nil, hs⟩
  | type => exact hsingle h
  | keyword =>
    obtain ⟨k, hk, -, hs⟩ := Rule.keyword_sound h
    exact ⟨_, (starts_keyword hk).ne_nil, hs⟩
  | className =>
    obtain ⟨⟨n, q⟩, hn, he⟩ := Option.map_eq_some_iff.1 ((Rule.run_className s).symm.trans h)
    obtain ⟨hname, hs⟩ := className?_sound hn
    cases he
    exact ⟨n, hname.ne_nil, hs⟩
  | array => exact hsingle (run_orElse_eq_some_iff.2 (.inl h))
  | leveled =>
    obtain ⟨n, w, -, hs, hw⟩ := Rule.leveled_sound hn h
    exact ⟨w, hw.starts.ne_nil, hs⟩
  | group => exact hgroup h
  | generic => exact hgeneric h
  | afresh rule =>
    cases rule with
    | group => exact hgroup h
    | generic => exact hgeneric h

theorem Spot.lands_outcome (spot : Spot) {s : List Char} (hs : IsRest text spot.position s) :
    Lands text spot.position (spot.rule.answer (bound - spot.level).toNat s).run
      (spot.outcome bound text) := by
  let c : Cursor := { position := spot.position, level := spot.level }
  have hc : IsRest text c.position s := hs
  obtain ⟨hlands, -⟩ :=
    (Production.afresh spot.rule).read_performs bound hc c hc rfl (Kept.agrees_nil bound text)
  obtain ⟨rule, n, level⟩ := spot
  cases rule <;> exact hlands

theorem Kept.correct_iff {kept : Kept} : kept.Correct bound text ↔ kept.Agrees bound text := by
  constructor
  · intro h spot outcome hlookup s hs
    rw [h spot outcome hlookup hs.le]
    exact spot.lands_outcome hs
  · intro h spot outcome hlookup hle
    have hs : IsRest text spot.position (text.drop spot.position) := ⟨hle, rfl⟩
    exact (h spot outcome hlookup _ hs).unique (spot.lands_outcome hs)

theorem Production.rule_simulates (production : Production) (bound level : Nat) {s : List Char}
    (hs : s <:+ text) : Simulates bound text level
      (production.rule .keeping (nested .keeping (bound - level)) s)
      (production.rule .direct (nested .direct (bound - level)) s) := by
  have hn := nested_simulates bound text _ level rfl
  cases production with
  | expression stop => exact Rule.expression_simulates hn stop hs
  | type => exact Rule.type_simulates hn hs
  | keyword => exact .settled _
  | className => exact .settled _
  | array => exact Rule.array_simulates hn hs
  | leveled => exact Rule.leveled_simulates hn hs
  | group => exact Rule.group_simulates hn hs
  | generic => exact Rule.generic_simulates hn hs
  | afresh rule =>
    cases rule with
    | group => exact Rule.group_simulates hn hs
    | generic => exact Rule.generic_simulates hn hs

/-- A reader finds what a cursor finds that begins with the text. -/
theorem Reader.read_eq_walk (reader : Reader) (s : List Char) : (reader.read s).1 =
    (((Production.expression fun _ => false).read reader.bound s).run {}).1 := by
  have hs : IsRest s ({} : Cursor).position s := ⟨Nat.zero_le _, rfl⟩
  obtain ⟨hlands, -⟩ := (Production.expression fun _ => false).read_performs reader.bound hs {} hs
    rfl (Kept.agrees_nil reader.bound s)
  have hlevel : (reader.bound - ({} : Cursor).level).toNat = reader.bound.toNat := by
    rw [Int.ofNat_zero, Int.sub_zero]
  rw [hlevel] at hlands
  have hanswer : (whole .direct reader.bound.toNat s).run = _ := hlands.answer_eq
  rw [Reader.read_eq, hanswer, Option.map_map]
  exact Option.map_id'

theorem Production.ahead_of_lands {production : Production} {allowed start n : Nat}
    {s : List Char} {t : TypeExpr} (hs : IsRest text start s)
    (h : Lands text start (production.rule .direct (nested .direct allowed) s).run (some t, n)) :
    start < n ∧ n ≤ text.length := by
  generalize hrule : (production.rule .direct (nested .direct allowed) s).run = answer at h
  cases h with
  | found hr =>
    obtain ⟨w, hw, rfl⟩ := production.exists_of_rule hrule
    have hpos := List.length_pos_iff.2 hw
    have hn := hs.advance.unique hr
    exact ⟨by omega, hr.le⟩

/-- A production that is tried at a cursor of a text leaves it in order. What it finds and how far it
moves are told by the text from the cursor on and the levels that are left; it finds what the rules
of a reader give there, which leave their memory in order as well. -/
theorem Production.read_inOrder (bound : Int) (text : List Char) (production : Production)
    (c : Cursor) (hc : c.position ≤ text.length) (hk : c.kept.Correct bound text) :
    let result := (production.read bound text).run c
    c.InOrder bound text result.1 result.2 ∧
      (∀ (otherBound : Int) (otherText : List Char) (d : Cursor),
        d.position ≤ otherText.length → d.kept.Correct otherBound otherText →
        otherText.drop d.position = text.drop c.position →
        otherBound - d.level = bound - c.level →
        let other := (production.read otherBound otherText).run d
        other.1 = result.1 ∧
          other.2.position - d.position = result.2.position - c.position) ∧
      ∀ memory : Memory, memory.level = c.level → memory.Correct bound.toNat text →
        let ruled := (production.rule .keeping (nested .keeping (bound.toNat - c.level))
          (text.drop c.position)).run memory
        ruled.1 = (result.1.map fun t => (t, text.drop result.2.position)) ∧
          ruled.2.level = c.level ∧ ruled.2.Correct bound.toNat text := by
  intro result
  have hs : IsRest text c.position (text.drop c.position) := ⟨hc, rfl⟩
  obtain ⟨hlands, hlevel, hkept⟩ := production.read_performs bound hs c hs rfl (Kept.correct_iff.1 hk)
  refine ⟨⟨hlands.eq_start, fun t ht => ?_, hlevel, Kept.correct_iff.2 hkept⟩, ?_, ?_⟩
  · exact production.ahead_of_lands hs (ht ▸ hlands)
  · intro otherBound otherText d hd hdk hrest hleft
    have hd : IsRest otherText d.position (text.drop c.position) := ⟨hd, hrest⟩
    obtain ⟨hother, -⟩ := production.read_performs otherBound hd d hd rfl (Kept.correct_iff.1 hdk)
    -- both perform the rule for the same text and as many levels
    rw [hleft] at hother
    exact hlands.congr hother hs hd
  · intro memory hml hmk
    have hleft : (bound - c.level).toNat = bound.toNat - c.level := by omega
    obtain ⟨hanswer, hml', hmk'⟩ := production.rule_simulates bound.toNat c.level
      (List.drop_suffix c.position text) memory hml hmk
    rw [hleft] at hlands
    exact ⟨hanswer.trans hlands.answer_eq, hml', hmk'⟩

/-- A group that lacks its levels is given up after a generic inside it was found. What that left
is right, so the generic is found again without being read once more; at the beginning of a text
and with as many levels left it is found as well. -/
theorem Production.read_inOrder_given_up :
    let text := "?(A<int>|b)|c".toList
    let first := (Production.type.read 3 text).run ⟨1, 1, []⟩
    let again := (Production.generic.read 3 text).run ⟨2, 2, first.2.kept⟩
    let alone := (Production.generic.read 1 (text.drop 2)).run {}
    let ruled := (Production.generic.rule .keeping (nested .keeping 1) (text.drop 2)).run
      { level := 2 }
    first.1.isNone = true ∧ first.2.position = 1 ∧ first.2.kept.length = 8 ∧
      first.2.kept.Correct 3 text ∧ again.1.map toString = some "A<int>" ∧
      again.2.position = 8 ∧ again.2.kept.length = 8 ∧ alone.1 = again.1 ∧
      alone.2.position = 6 ∧ ruled.1 = again.1.map fun t => (t, "|b)|c".toList) := by
  intro text first again alone ruled
  have hempty (bound : Int) (text : List Char) : Kept.Correct bound text [] :=
    Kept.correct_iff.2 (Kept.agrees_nil bound text)
  have hnone : first.1.isNone = true := by decide +kernel
  have hlength : first.2.kept.length = 8 := by decide +kernel
  have hfound : again.1.map toString = some "A<int>" := by decide +kernel
  have hposition : again.2.position = 8 := by decide +kernel
  have hsame : again.2.kept.length = 8 := by decide +kernel
  have hmoved : alone.2.position = 6 := by decide +kernel
  have hone : 1 ≤ text.length := by decide +kernel
  have htwo : 2 ≤ text.length := by decide +kernel
  have hrest : text.drop 8 = "|b)|c".toList := by decide +kernel
  have hfirst := (read_inOrder 3 text .type ⟨1, 1, []⟩ hone (hempty 3 text)).1
  have hrun : first = (Production.type.read 3 text).run ⟨1, 1, []⟩ := rfl
  rw [← hrun] at hfirst
  clear_value first
  have hagain := read_inOrder 3 text .generic ⟨2, 2, first.2.kept⟩ htwo hfirst.kept
  have halone := hagain.2.1 1 (text.drop 2) {} (Nat.zero_le _) (hempty 1 _) List.drop_zero rfl
  have hruled := (hagain.2.2 { level := 2 } rfl (Memory.correct_empty _ _)).1
  have hback := hfirst.back (Option.isNone_iff_eq_none.1 hnone)
  have hanswer : ruled.1 = again.1.map fun t => (t, text.drop again.2.position) := hruled
  rw [hposition, hrest] at hanswer
  exact ⟨hnone, hback, hlength, hfirst.kept, hfound, hposition, hsame, halone.1, hmoved, hanswer⟩

end DocComment.TypeExpr
