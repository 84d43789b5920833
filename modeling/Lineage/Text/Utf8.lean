import Lineage.Text.Hex

/-! Texts as bytes. -/

namespace Lineage.Text

/-- Why bytes do not make a text. -/
inductive Utf8Reason where
  | invalidStart
  | invalidContinuation
  | unexpectedEnd
  deriving DecidableEq, Repr

/-- The reason in words. -/
def Utf8Reason.text : Utf8Reason → String
  | .invalidStart => "invalid start byte"
  | .invalidContinuation => "invalid continuation byte"
  | .unexpectedEnd => "unexpected end of data"

/-- Bytes that do not make a text: where they begin, the first of them, how many they are, and the
reason. -/
structure Utf8Fault where
  position : Nat
  byte : Nat
  length : Nat
  reason : Utf8Reason
  deriving DecidableEq, Repr

/-- What is wrong, in words. -/
def Utf8Fault.message (fault : Utf8Fault) : String :=
  "'utf-8' codec can't decode " ++
    (if fault.length == 1 then
      "byte 0x" ++ String.ofList (hexDigits .lower 2 fault.byte) ++ " in position " ++
        toString fault.position
    else
      "bytes in position " ++ toString fault.position ++ "-" ++
        toString (fault.position + fault.length - 1)) ++
    ": " ++ fault.reason.text

/-- How a character begins: how many bytes follow, the bounds of the first of them, and the bits it
begins with. -/
structure LeadByte where
  following : Nat
  least : Nat
  most : Nat
  bits : Nat

/-- The meaning of the first byte of a character that has more than one. -/
def leadByte? (byte : Nat) : Option LeadByte :=
  if 0xC2 ≤ byte && byte ≤ 0xDF then some ⟨1, 0x80, 0xBF, byte - 0xC0⟩
  else if byte == 0xE0 then some ⟨2, 0xA0, 0xBF, 0⟩
  else if byte == 0xED then some ⟨2, 0x80, 0x9F, 0xD⟩
  else if 0xE1 ≤ byte && byte ≤ 0xEF then some ⟨2, 0x80, 0xBF, byte - 0xE0⟩
  else if byte == 0xF0 then some ⟨3, 0x90, 0xBF, 0⟩
  else if byte == 0xF4 then some ⟨3, 0x80, 0x8F, 4⟩
  else if 0xF1 ≤ byte && byte ≤ 0xF3 then some ⟨3, 0x80, 0xBF, byte - 0xF0⟩
  else none

/-- Reads the bytes that follow a lead byte, the first of them within the given bounds. Returns the
bits of the whole character, or how many of the bytes were as they should be and what is wrong with
the next. -/
def followingBits (least most : Nat) (bits : Nat) : Nat → List UInt8 → Except (Nat × Utf8Reason) Nat
  | 0, _ => .ok bits
  | _ + 1, [] => .error (0, .unexpectedEnd)
  | more + 1, byte :: rest =>
    if least ≤ byte.toNat && byte.toNat ≤ most then
      match followingBits 0x80 0xBF (bits * 64 + byte.toNat % 64) more rest with
      | .ok value => .ok value
      | .error (count, reason) => .error (count + 1, reason)
    else .error (0, .invalidContinuation)

/-- The text that bytes make, the first of them at a position. -/
def decodeFrom (position : Nat) (bytes : List UInt8) : Except Utf8Fault (List Char) :=
  match bytes with
  | [] => .ok []
  | byte :: rest =>
    if byte.toNat < 0x80 then (decodeFrom (position + 1) rest).map (Char.ofNat byte.toNat :: ·)
    else
      match leadByte? byte.toNat with
      | none => .error ⟨position, byte.toNat, 1, .invalidStart⟩
      | some lead =>
        match followingBits lead.least lead.most lead.bits lead.following rest with
        -- The lead byte and the bytes behind it that fit are reported together.
        | .error (count, reason) => .error ⟨position, byte.toNat, count + 1, reason⟩
        | .ok value =>
          (decodeFrom (position + lead.following + 1) (rest.drop lead.following)).map
            (Char.ofNat value :: ·)
termination_by bytes.length
decreasing_by
  · simp
  · simp only [List.length_drop, List.length_cons]; omega

/-- The text that bytes make. -/
def decode (bytes : List UInt8) : Except Utf8Fault (List Char) :=
  decodeFrom 0 bytes

/-- The bytes of a text. -/
def encode (text : List Char) : List UInt8 :=
  text.flatMap String.utf8EncodeChar

end Lineage.Text
