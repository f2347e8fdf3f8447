/-! Strict UTF-8. A lead byte fixes how many continuation bytes follow and the
range of the first of them, which leaves out overlong forms, surrogates and code
points beyond the last; decoding stops at the first sequence that breaks this. -/

namespace DocComment.Text.Utf8

inductive Reason where
  | invalidStart
  | invalidContinuation
  | unexpectedEnd
  deriving DecidableEq, Repr

/-- The first bad sequence: where it starts, its first byte and its length. -/
structure Fault where
  position : Nat
  lead : UInt8
  length : Nat
  reason : Reason
  deriving DecidableEq, Repr

/-- A sequence that is not complete: `missing + 1` continuation bytes are to come,
the first of them between `low` and `high`. -/
structure Pending where
  lead : UInt8
  length : Nat
  missing : Nat
  low : UInt8
  high : UInt8
  value : Nat
  deriving Repr

/-- What a byte begins. -/
inductive Start where
  | char (c : Char)
  | sequence (p : Pending)
  | invalid
  deriving Repr

/-- A byte where a character should begin. -/
def start (b : UInt8) : Start :=
  if b < 0x80 then .char (Char.ofNat b.toNat)
  else if b < 0xc2 then .invalid
  else if b < 0xe0 then .sequence ⟨b, 1, 0, 0x80, 0xbf, b.toNat - 0xc0⟩
  else if b < 0xf0 then
    .sequence ⟨b, 1, 1, if b = 0xe0 then 0xa0 else 0x80, if b = 0xed then 0x9f else 0xbf,
      b.toNat - 0xe0⟩
  else if b < 0xf5 then
    .sequence ⟨b, 1, 2, if b = 0xf0 then 0x90 else 0x80, if b = 0xf4 then 0x8f else 0xbf,
      b.toNat - 0xf0⟩
  else .invalid

/-- The bytes from a position on, where a sequence that started there may be open. -/
def decodeFrom (position : Nat) : Option Pending → List UInt8 → Except Fault (List Char)
  | none, [] => .ok []
  | some p, [] => .error ⟨position, p.lead, p.length, .unexpectedEnd⟩
  | none, b :: bs =>
    match start b with
    | .char c => (decodeFrom (position + 1) none bs).map (c :: ·)
    | .sequence p => decodeFrom position (some p) bs
    | .invalid => .error ⟨position, b, 1, .invalidStart⟩
  | some p, b :: bs =>
    if p.low ≤ b && b ≤ p.high then
      let value := p.value * 64 + (b.toNat - 0x80)
      match p.missing with
      | 0 => (decodeFrom (position + p.length + 1) none bs).map (Char.ofNat value :: ·)
      | k + 1 => decodeFrom position (some ⟨p.lead, p.length + 1, k, 0x80, 0xbf, value⟩) bs
    else .error ⟨position, p.lead, p.length, .invalidContinuation⟩

/-- The characters that the bytes encode. -/
def decode (bytes : List UInt8) : Except Fault (List Char) := decodeFrom 0 none bytes

end DocComment.Text.Utf8
