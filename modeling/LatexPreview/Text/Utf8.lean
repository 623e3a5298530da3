import LatexPreview.Text.Basic

/-!
# UTF-8

Bytes as text. A text is read byte by byte; where the bytes do not form a
character, the longest part that could have begun one is at fault.

* `Utf8.encode` writes a text
* `Utf8.step` reads one character or the part at fault
* `Utf8.decode` refuses bytes at the first fault, `Utf8.decodeLossy` puts the
  replacement character in place of each faulty part
-/

namespace LatexPreview

/-- A sequence of bytes. -/
abbrev Bytes := List UInt8

namespace Utf8

/-- The bytes of a text. -/
def encode (s : Text) : Bytes := s.flatMap String.utf8EncodeChar

/-- Why bytes form no character. -/
inductive FaultKind where
  | invalidStart
  | invalidContinuation
  | unexpectedEnd

/-- The wording of a fault. -/
def FaultKind.message : FaultKind → String
  | invalidStart => "invalid start byte"
  | invalidContinuation => "invalid continuation byte"
  | unexpectedEnd => "unexpected end of data"

/-- A part of the bytes that forms no character. -/
structure Fault where
  kind : FaultKind
  /-- The position of the part. -/
  start : Nat
  /-- The bytes of the part; there is at least one. -/
  part : Bytes

/-- The wording of a refusal: one byte is shown, of several only the positions. -/
def Fault.message (f : Fault) : Text :=
  let place : Text := match f.part with
    | [b] =>
      "byte 0x".toList ++ Text.padLeft 2 '0' (Nat.toDigits 16 b.toNat)
        ++ " in position ".toList ++ Text.ofNat f.start
    | part =>
      "bytes in position ".toList ++ Text.ofNat f.start ++ "-".toList
        ++ Text.ofNat (f.start + part.length - 1)
  "'utf-8' codec can't decode ".toList ++ place ++ ": ".toList ++ f.kind.message.toList

/-- What stands at the front of some bytes. -/
inductive Step where
  | char (c : Char) (rest : Bytes)
  | fault (kind : FaultKind) (part rest : Bytes)

/-- Is the byte one that continues a character? -/
def isTail (b : UInt8) : Bool := 0x80 ≤ b && b ≤ 0xBF

/-- May the byte stand second, behind the given first byte of a character of three or four? The
first bytes at the ends of the ranges leave only a part of the continuing bytes. -/
def isSecond (first second : UInt8) : Bool :=
  isTail second &&
    (first != 0xE0 || 0xA0 ≤ second) && (first != 0xED || second < 0xA0) &&
    (first != 0xF0 || 0x90 ≤ second) && (first != 0xF4 || second < 0x90)

/-- The six bits of a byte that continues a character. -/
def low (b : UInt8) : Nat := b.toNat % 64

/-- Reads the continuing bytes of a character, the first of them by a test of its own. -/
def tails (value : Nat) (read : Bytes) : Nat → (UInt8 → Bool) → Bytes → Step
  | 0, _, rest => .char (Char.ofNat value) rest
  | _ + 1, _, [] => .fault .unexpectedEnd read []
  | n + 1, ok, b :: rest =>
    if ok b then tails (value * 64 + low b) (read ++ [b]) n isTail rest
    else .fault .invalidContinuation read (b :: rest)

/-- Reads the character or the fault at the front of bytes that begin with `b`. -/
def step (b : UInt8) (rest : Bytes) : Step :=
  let n := b.toNat
  if n < 0x80 then .char (Char.ofNat n) rest
  else if n < 0xC2 then .fault .invalidStart [b] rest
  else if n < 0xE0 then tails (n % 32) [b] 1 isTail rest
  else if n < 0xF0 then tails (n % 16) [b] 2 (isSecond b) rest
  else if n < 0xF5 then tails (n % 8) [b] 3 (isSecond b) rest
  else .fault .invalidStart [b] rest

/-- Reads at most `fuel` characters; each takes a byte or more. -/
def decodeFrom : (fuel : Nat) → (start : Nat) → Bytes → Except Fault Text
  | 0, _, _ => .ok []
  | _, _, [] => .ok []
  | fuel + 1, start, b :: bytes =>
    match step b bytes with
    | .char c rest => do
      let s ← decodeFrom fuel (start + (bytes.length + 1 - rest.length)) rest
      pure (c :: s)
    | .fault kind part _ => .error ⟨kind, start, part⟩

/-- The text of some bytes, unless they have a fault. -/
def decode (bytes : Bytes) : Except Fault Text := decodeFrom bytes.length 0 bytes

/-- Reads at most `fuel` characters or faults; each takes a byte or more. -/
def decodeLossyFrom : (fuel : Nat) → Bytes → Text
  | 0, _ => []
  | _, [] => []
  | fuel + 1, b :: bytes =>
    match step b bytes with
    | .char c rest => c :: decodeLossyFrom fuel rest
    | .fault _ _ rest => '\uFFFD' :: decodeLossyFrom fuel rest

/-- The text of some bytes, with a replacement character for each faulty part. -/
def decodeLossy (bytes : Bytes) : Text := decodeLossyFrom bytes.length bytes

end Utf8

end LatexPreview
