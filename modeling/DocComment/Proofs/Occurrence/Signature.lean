import DocComment.Occurrence.WellFormed
import DocComment.Proofs.Occurrence.Pieces

/-! How far a signature reaches. It runs from a parenthesis to the first closing one behind it,
so that it is one group exactly where no other parenthesis opens in between; a group inside it
cuts it off at the end of that group. -/

namespace DocComment.Occurrence

variable {s t x : List Char}

theorem Nests.mono (h : Nests s) (ht : s <:+: t) : Nests t := by
  obtain ⟨a, ha, hclose⟩ := h
  exact ⟨a, ha.trans ht, hclose⟩

theorem Nests.two_le_count (h : Nests s) : 2 ≤ s.count '(' := by
  obtain ⟨a, ha, -⟩ := h
  refine le_trans ?_ (ha.sublist.count_le '(')
  simp

/-! ### One pair of parentheses -/

theorem isGroup_wrap_iff (hclose : ')' ∉ x) : IsGroup ('(' :: (x ++ [')'])) ↔ '(' ∉ x := by
  constructor
  · rintro ⟨y, hy, hopen, -⟩
    obtain rfl : x = y := List.append_cancel_right (List.cons.inj hy).2
    exact hopen
  · exact fun hopen => ⟨x, rfl, hopen, hclose⟩

theorem nests_wrap_iff (hclose : ')' ∉ x) : Nests ('(' :: (x ++ [')'])) ↔ '(' ∈ x := by
  constructor
  · intro h
    -- the pair opens with one of the two
    have hcount := h.two_le_count
    rw [List.count_cons_self, List.count_append] at hcount
    exact List.count_pos_iff.1 (by simpa using hcount)
  · intro hopen
    obtain ⟨a, b, rfl⟩ := List.append_of_mem hopen
    refine ⟨a, ⟨[], b ++ [')'], by simp⟩, fun hm => hclose ?_⟩
    exact List.mem_append_left _ hm

/-! ### Signatures -/

variable {asked : Int} {text : String} {o : Occurrence}

theorem isSignature_of_mem_scan (h : o ∈ scan asked text) (hk : o.kind = .signature) :
    IsSignature o.body.toList := by
  rw [scan_eq] at h
  obtain ⟨t, found, -, hfound, rfl⟩ := exists_tagAt?_of_mem h
  have hbody := isBody_of_tagAt? hfound (by simp [hk])
  rwa [hk] at hbody

/-- The body of a signature closes with its only closing parenthesis. It is one group exactly
where it does not nest parentheses, and hence wherever the text does not. -/
theorem scan_signature (h : o ∈ scan asked text) (hk : o.kind = .signature) :
    (∃ x, o.body.toList = '(' :: (x ++ [')']) ∧ x ≠ [] ∧ ')' ∉ x) ∧
      (IsGroup o.body.toList ↔ ¬ Nests o.body.toList) ∧
      (¬ Nests text.toList → IsGroup o.body.toList) := by
  obtain ⟨x, hbody, hfilled, hclose⟩ := (isSignature_of_mem_scan h hk).exists_wrap
  have hgroup : IsGroup o.body.toList ↔ ¬ Nests o.body.toList := by
    rw [hbody, isGroup_wrap_iff hclose, nests_wrap_iff hclose]
  refine ⟨⟨x, hbody, hfilled, hclose⟩, hgroup, fun htext => hgroup.2 fun hnests => htext ?_⟩
  exact hnests.mono (infix_of_mem_scan h o.body (by simp [strings]))

/-- A signature over two lines, the second of which begins with a name. -/
theorem scan_signature_two_lines :
    (⟨"b", none, .signature, "(x\n@c, )"⟩ : Occurrence) ∈ scan 1 "@a )\n@b\t(x\n@c, )y" ∧
      ¬ Nests "@a )\n@b\t(x\n@c, )y".toList ∧ IsGroup "(x\n@c, )".toList := by
  have h : (⟨"b", none, .signature, "(x\n@c, )"⟩ : Occurrence) ∈
      scan 1 "@a )\n@b\t(x\n@c, )y" := by decide +kernel
  have htext : ¬ Nests "@a )\n@b\t(x\n@c, )y".toList := fun hn =>
    absurd hn.two_le_count (by decide +kernel)
  exact ⟨h, htext, (scan_signature h rfl).2.2 htext⟩

/-- The parameters of a parameter are a group inside the signature, which ends with them. -/
theorem scan_signature_cut_off :
    scan Nesting.default "@method (callable(int) $f)" =
        [⟨"method", none, .signature, "(callable(int)"⟩] ∧
      ¬ IsGroup "(callable(int)".toList := by
  have hbody : "(callable(int)".toList = '(' :: ("callable(int".toList ++ [')']) := by
    decide +kernel
  refine ⟨by decide +kernel, ?_⟩
  rw [hbody, isGroup_wrap_iff (by decide +kernel)]
  decide +kernel

end DocComment.Occurrence
