import DocComment.Proofs.Comment.Decoration

/-! A comment that is extracted loses its closing with its decoration, and no other closing is
left or comes about. What is taken off at the two ends is what the comment was wrapped in;
behind that only parts of lines are left out, and lines are put together with breaks. -/

namespace DocComment.Comment

open Text

variable {s t body : List Char}

theorem Unclosed.part (ht : Unclosed t) (h : s <:+: t) : Unclosed s := fun hs => ht (hs.trans h)

theorem unclosed_append_cons {c : Char} (hs : c ≠ '*') (hc : c ≠ '/') :
    Unclosed (s ++ c :: t) ↔ Unclosed s ∧ Unclosed t := by
  rw [Unclosed, pair_infix_append_cons (Ne.symm hs) (Ne.symm hc), not_or, Unclosed, Unclosed]

theorem unclosed_unlines {ls : List (List Char)} (h : ∀ l ∈ ls, Unclosed l) :
    Unclosed (unlines ls) := by
  induction ls with
  | nil => decide
  | cons l ls ih =>
    obtain ⟨hl, hls⟩ := List.forall_mem_cons.1 h
    cases ls with
    | nil => exact hl
    | cons m ms =>
      rw [unlines_cons l (by simp), unclosed_append_cons (by decide) (by decide)]
      exact ⟨hl, ih hls⟩

theorem unclosed_unifyBreaks : Unclosed (unifyBreaks s) ↔ Unclosed s := by
  fun_induction unifyBreaks s with
  | case1 r ih => simp [unclosed_cons, ih]
  | case2 r _ ih => simp [unclosed_cons, ih]
  | case3 c r _ _ ih =>
    rw [unclosed_cons, unclosed_cons, head?_unifyBreaks (by decide) (by decide), ih]
  | case4 => rfl

/-! ### Decoration -/

/-- Opening and closing are taken off the lines of a comment, also where they stand on one. -/
theorem dropEnds_wrap (h : Unclosed body) : dropEnds (lines (wrap body)) = lines body := by
  obtain ⟨ks, k, hbody, hclosed⟩ := lines_append_right body (l := ['*', '/']) (by decide)
  obtain ⟨j, js, hopened, hwrap⟩ :=
    lines_append_left (l := ['/', '*', '*']) (by decide) (body ++ ['*', '/'])
  have hk : Unclosed k := h.part (infix_of_mem_lines (by simp [hbody]))
  calc dropEnds (lines (wrap body))
      = dropEnds ((['/', '*', '*'] ++ j) :: js) := congrArg dropEnds hwrap
    _ = modifyLast dropClosing (j :: js) := rfl
    _ = modifyLast dropClosing (ks ++ [k ++ ['*', '/']]) := by rw [← hopened, hclosed]
    _ = lines body := by rw [modifyLast_append, dropClosing_of_unclosed hk, hbody]

theorem unclosed_undecorate_wrap (h : Unclosed body) :
    Unclosed (undecorate (String.ofList (wrap body))).toList := by
  rw [undecorate, String.toList_ofList, String.toList_ofList]
  refine unclosed_unlines fun l hl => ?_
  obtain ⟨k, rfl, n, hn, hkn⟩ := exists_dropEnds_of_mem_bareLines hl
  rw [unifyBreaks_wrap, dropEnds_wrap (unclosed_unifyBreaks.2 h)] at hn
  exact (unclosed_unifyBreaks.2 h).part
    ((infix_trim k).trans (hkn.trans (infix_of_mem_lines hn)))

/-- What is extracted is wrapped around a body. -/
theorem exists_of_mem_extract {source comment : String} (h : comment ∈ extract source) :
    ∃ body, IsBody body ∧ comment = String.ofList (wrap body) := by
  obtain ⟨front, ps, -, hps, -⟩ := exists_woven source.toList
  obtain ⟨body, hbody, rfl⟩ := List.mem_map.1 h
  rw [hps] at hbody
  obtain ⟨p, -, rfl⟩ := List.mem_map.1 hbody
  exact ⟨p.body, p.isBody, rfl⟩

theorem unclosed_undecorate {source comment : String} (h : comment ∈ extract source) :
    Unclosed (undecorate comment).toList := by
  obtain ⟨body, hbody, rfl⟩ := exists_of_mem_extract h
  exact unclosed_undecorate_wrap hbody.unclosed

end DocComment.Comment
