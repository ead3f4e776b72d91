import FormulaCalculus.Text.Quoted

/-!
# UTF-8

Decoding by one pass over the bytes. A sequence is refused at its first byte if no sequence starts
with it, at the first byte that cannot continue it, or at the end of the data; overlong forms,
surrogates and code points beyond the last are refused at the byte that shows them.
-/

namespace FormulaCalculus.Text.Utf8

inductive Cause
  | start
  | continuation
  | truncated
  deriving DecidableEq, Repr

/-- The bytes from `first` to `last` form no character; `lead` is the first of them. -/
structure Fault where
  lead : UInt8
  first : Nat
  last : Nat
  cause : Cause
  deriving DecidableEq, Repr

def Cause.message : Cause → String
  | .start => "invalid start byte"
  | .continuation => "invalid continuation byte"
  | .truncated => "unexpected end of data"

def Fault.message (f : Fault) : String :=
  let place :=
    if f.first = f.last then
      "byte 0x" ++ String.ofList (hex 2 f.lead.toNat) ++ " in position " ++ toString f.first
    else "bytes in position " ++ toString f.first ++ "-" ++ toString f.last
  "'utf-8' codec can't decode " ++ place ++ ": " ++ f.cause.message

/-- A sequence under way: its lead byte and place, the code point so far, how many bytes are
missing and the range of the next one. -/
structure Pending where
  lead : UInt8
  place : Nat
  code : Nat
  missing : Nat
  low : UInt8
  high : UInt8

/-- The sequence that a byte starts, a single byte apart. -/
def open? (b : UInt8) (place : Nat) : Option Pending :=
  if 0xc2 ≤ b && b ≤ 0xdf then some ⟨b, place, b.toNat % 32, 1, 0x80, 0xbf⟩
  else if b == 0xe0 then some ⟨b, place, 0, 2, 0xa0, 0xbf⟩
  else if b == 0xed then some ⟨b, place, 13, 2, 0x80, 0x9f⟩
  else if 0xe1 ≤ b && b ≤ 0xef then some ⟨b, place, b.toNat % 16, 2, 0x80, 0xbf⟩
  else if b == 0xf0 then some ⟨b, place, 0, 3, 0x90, 0xbf⟩
  else if 0xf1 ≤ b && b ≤ 0xf3 then some ⟨b, place, b.toNat % 8, 3, 0x80, 0xbf⟩
  else if b == 0xf4 then some ⟨b, place, 4, 3, 0x80, 0x8f⟩
  else none

/-- Decodes the bytes from position `place` on, inside the sequence `pending`. -/
def decodeFrom (place : Nat) : Option Pending → List UInt8 → Except Fault (List Char)
  | none, [] => .ok []
  | some p, [] => .error ⟨p.lead, p.place, place - 1, .truncated⟩
  | none, b :: bs =>
    if b < 0x80 then (Char.ofNat b.toNat :: ·) <$> decodeFrom (place + 1) none bs
    else match open? b place with
      | some p => decodeFrom (place + 1) (some p) bs
      | none => .error ⟨b, place, place, .start⟩
  | some p, b :: bs =>
    if p.low ≤ b && b ≤ p.high then
      let code := 64 * p.code + b.toNat % 64
      if p.missing ≤ 1 then (Char.ofNat code :: ·) <$> decodeFrom (place + 1) none bs
      else decodeFrom (place + 1) (some ⟨p.lead, p.place, code, p.missing - 1, 0x80, 0xbf⟩) bs
    else .error ⟨p.lead, p.place, place - 1, .continuation⟩

def decode (bytes : List UInt8) : Except Fault (List Char) :=
  decodeFrom 0 none bytes

example : decode [0xc3, 0xa9] = .ok ['é'] := by rfl
example : decode [0x61, 0xff] = .error ⟨0xff, 1, 1, .start⟩ := by rfl

end FormulaCalculus.Text.Utf8
