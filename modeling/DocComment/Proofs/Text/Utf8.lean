import DocComment.Text.Utf8

/-! Strict decoding undoes encoding. Every character is encoded with the lead byte of its
length and with continuation bytes in the range that the lead byte allows, so no sequence is
refused, and the six bits of each continuation byte make up the character again. -/

namespace DocComment.Text.Utf8

theorem byte_lt_iff {n : Nat} (h : n < 256) (b : UInt8) : UInt8.ofNat n < b ↔ n < b.toNat := by
  rw [UInt8.lt_iff_toNat_lt, UInt8.toNat_ofNat_of_lt' h]

theorem byte_eq_iff {n : Nat} (h : n < 256) (b : UInt8) : UInt8.ofNat n = b ↔ n = b.toNat := by
  rw [← UInt8.toNat_inj, UInt8.toNat_ofNat_of_lt' h]

/-! ### Lead bytes -/

theorem start_one {n : Nat} (h : n < 0x80) : start (UInt8.ofNat n) = .char (Char.ofNat n) := by
  have hn : n < 256 := by omega
  rw [start, if_pos ((byte_lt_iff hn 0x80).2 h), UInt8.toNat_ofNat_of_lt' hn]

theorem start_two {n : Nat} (hl : 2 ≤ n) (h : n < 32) : start (UInt8.ofNat (n + 192)) =
    .sequence ⟨UInt8.ofNat (n + 192), 1, 0, 0x80, 0xbf, n⟩ := by
  have hn : n + 192 < 256 := by omega
  have lt := byte_lt_iff hn
  rw [start, if_neg (mt (lt _).1 (by simp)), if_neg (mt (lt _).1 (by simp; omega)),
    if_pos ((lt _).2 (by simp; omega)), UInt8.toNat_ofNat_of_lt' hn]
  simp

theorem start_three {n : Nat} (h : n < 16) : start (UInt8.ofNat (n + 224)) =
    .sequence ⟨UInt8.ofNat (n + 224), 1, 1, if n = 0 then 0xa0 else 0x80,
      if n = 13 then 0x9f else 0xbf, n⟩ := by
  have hn : n + 224 < 256 := by omega
  have lt := byte_lt_iff hn
  rw [start, if_neg (mt (lt _).1 (by simp)), if_neg (mt (lt _).1 (by simp)),
    if_neg (mt (lt _).1 (by simp)), if_pos ((lt _).2 (by simp; omega)), UInt8.toNat_ofNat_of_lt' hn]
  simp only [byte_eq_iff hn]
  simp

theorem start_four {n : Nat} (h : n < 5) : start (UInt8.ofNat (n + 240)) =
    .sequence ⟨UInt8.ofNat (n + 240), 1, 2, if n = 0 then 0x90 else 0x80,
      if n = 4 then 0x8f else 0xbf, n⟩ := by
  have hn : n + 240 < 256 := by omega
  have lt := byte_lt_iff hn
  rw [start, if_neg (mt (lt _).1 (by simp)), if_neg (mt (lt _).1 (by simp)),
    if_neg (mt (lt _).1 (by simp)), if_neg (mt (lt _).1 (by simp)),
    if_pos ((lt _).2 (by simp; omega)), UInt8.toNat_ofNat_of_lt' hn]
  simp only [byte_eq_iff hn]
  simp

/-! ### Continuation bytes -/

section Continuation

variable {position v : Nat} {p : Pending}

theorem within_range (hv : v < 64) (hl : p.low.toNat ≤ v + 128) (hh : v + 128 ≤ p.high.toNat) :
    (p.low ≤ UInt8.ofNat (v + 128) && UInt8.ofNat (v + 128) ≤ p.high) = true := by
  have hn : v + 128 < 256 := by omega
  simp only [UInt8.le_iff_toNat_le, UInt8.toNat_ofNat_of_lt' hn, hl, hh, decide_true, Bool.and_self]

theorem decodeFrom_last (hv : v < 64) (hl : p.low.toNat ≤ v + 128) (hh : v + 128 ≤ p.high.toNat)
    (hm : p.missing = 0) (bs : List UInt8) :
    decodeFrom position (some p) (UInt8.ofNat (v + 128) :: bs) =
      (decodeFrom (position + p.length + 1) none bs).map (Char.ofNat (p.value * 64 + v) :: ·) := by
  have hn : v + 128 < 256 := by omega
  rw [decodeFrom, if_pos (within_range hv hl hh), hm]
  simp only [UInt8.toNat_ofNat_of_lt' hn, Nat.add_sub_cancel]

theorem decodeFrom_more (hv : v < 64) (hl : p.low.toNat ≤ v + 128) (hh : v + 128 ≤ p.high.toNat)
    {k : Nat} (hm : p.missing = k + 1) (bs : List UInt8) :
    decodeFrom position (some p) (UInt8.ofNat (v + 128) :: bs) =
      decodeFrom position (some ⟨p.lead, p.length + 1, k, 0x80, 0xbf, p.value * 64 + v⟩) bs := by
  have hn : v + 128 < 256 := by omega
  rw [decodeFrom, if_pos (within_range hv hl hh), hm]
  simp only [UInt8.toNat_ofNat_of_lt' hn, Nat.add_sub_cancel]

end Continuation

/-! ### Characters -/

/-- The bytes of a character are read as that character, and reading goes on behind them. -/
theorem decodeFrom_encodeChar (position : Nat) (c : Char) : ∃ next, ∀ bs,
    decodeFrom position none (String.utf8EncodeChar c ++ bs) =
      (decodeFrom next none bs).map (c :: ·) := by
  have hc : Char.ofNat c.val.toNat = c := Char.ofNat_toNat c
  -- surrogates are no characters, which keeps the byte behind 0xed below 0xa0
  have hvalid : c.val.toNat < 0xd800 ∨ 0xdfff < c.val.toNat ∧ c.val.toNat < 0x110000 := c.valid
  unfold String.utf8EncodeChar
  generalize c.val.toNat = n at hc hvalid
  dsimp only
  split
  · refine ⟨position + 1, fun bs => ?_⟩
    rw [List.singleton_append, decodeFrom, start_one (by omega)]
    simp only [hc]
  split
  · have hn : n / 64 % 32 * 64 + n % 64 = n := by omega
    refine ⟨position + 2, fun bs => ?_⟩
    rw [List.cons_append, List.singleton_append, decodeFrom, start_two (by omega) (by omega)]
    dsimp only
    rw [decodeFrom_last (by omega) (by simp) (by simp; omega) rfl, hn, hc]
  split
  · have hn : (n / 4096 % 16 * 64 + n / 64 % 64) * 64 + n % 64 = n := by omega
    have hl : (if n / 4096 % 16 = 0 then (0xa0 : UInt8) else 0x80).toNat ≤ n / 64 % 64 + 128 := by
      split
      · simp
        omega
      · simp
    have hh : n / 64 % 64 + 128 ≤ (if n / 4096 % 16 = 13 then (0x9f : UInt8) else 0xbf).toNat := by
      split <;> simp <;> omega
    refine ⟨position + 3, fun bs => ?_⟩
    rw [List.cons_append, List.cons_append, List.singleton_append, decodeFrom,
      start_three (by omega)]
    dsimp only
    rw [decodeFrom_more (by omega) hl hh rfl,
      decodeFrom_last (by omega) (by simp) (by simp; omega) rfl, hn, hc]
  · have hn : ((n / 262144 % 8 * 64 + n / 4096 % 64) * 64 + n / 64 % 64) * 64 + n % 64 = n := by
      omega
    have hl : (if n / 262144 % 8 = 0 then (0x90 : UInt8) else 0x80).toNat ≤
        n / 4096 % 64 + 128 := by
      split
      · simp
        omega
      · simp
    have hh : n / 4096 % 64 + 128 ≤
        (if n / 262144 % 8 = 4 then (0x8f : UInt8) else 0xbf).toNat := by split <;> simp <;> omega
    refine ⟨position + 4, fun bs => ?_⟩
    rw [List.cons_append, List.cons_append, List.cons_append, List.singleton_append, decodeFrom,
      start_four (by omega)]
    dsimp only
    rw [decodeFrom_more (by omega) hl hh rfl,
      decodeFrom_more (by omega) (by simp) (by simp; omega) rfl,
      decodeFrom_last (by omega) (by simp) (by simp; omega) rfl, hn, hc]

theorem decodeFrom_encode (position : Nat) (s : List Char) :
    decodeFrom position none (s.flatMap String.utf8EncodeChar) = .ok s := by
  induction s generalizing position with
  | nil => rfl
  | cons c s ih =>
    obtain ⟨next, hc⟩ := decodeFrom_encodeChar position c
    rw [List.flatMap_cons, hc, ih]
    rfl

/-- What is encoded is decoded without a fault. -/
theorem decode_encode (s : List Char) : decode (s.flatMap String.utf8EncodeChar) = .ok s :=
  decodeFrom_encode 0 s

end DocComment.Text.Utf8
