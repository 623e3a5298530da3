import LatexPreview.Text.Quoted
import LatexPreview.Text.Utf8

/-!
# Digests

The digest SHA-1 of a sequence of bytes. The bytes are padded to whole blocks of sixteen
words; each block is mixed into a state of five words in eighty steps.

* `Digest.pad` fills the last block up and tells the length there
* `Digest.steps` mixes with a window of the last sixteen words of the schedule
* `Digest.ofBytes` is the digest, `Digest.hex` its text of forty digits
* `mix_append`: blocks are mixed in one after the other
-/

namespace LatexPreview

/-- The state of a digest. -/
structure Digest where
  a : UInt32
  b : UInt32
  c : UInt32
  d : UInt32
  e : UInt32
  deriving DecidableEq

namespace Digest

/-- The state before the first block. -/
def start : Digest := ⟨0x67452301, 0xEFCDAB89, 0x98BADCFE, 0x10325476, 0xC3D2E1F0⟩

/-! ## Blocks -/

/-- A number as eight bytes, the most significant first. -/
def lengthBytes (n : Nat) : Bytes :=
  [56, 48, 40, 32, 24, 16, 8, 0].map fun s => UInt8.ofNat (n >>> s)

/-- The bytes with a mark behind them, zeros, and their number of bits at the end of a block. -/
def pad (bytes : Bytes) : Bytes :=
  let zeros := (119 - bytes.length % 64) % 64
  bytes ++ 0x80 :: List.replicate zeros 0 ++ lengthBytes (8 * bytes.length)

/-- The bytes as words of four, the most significant first. -/
def words : Bytes → List UInt32
  | a :: b :: c :: d :: rest =>
    (a.toUInt32 <<< 24 ||| b.toUInt32 <<< 16 ||| c.toUInt32 <<< 8 ||| d.toUInt32) :: words rest
  | _ => []

/-- The words as at most `fuel` blocks of sixteen. -/
def blocksFrom : (fuel : Nat) → List UInt32 → List (List UInt32)
  | 0, _ => []
  | _, [] => []
  | fuel + 1, ws => ws.take 16 :: blocksFrom fuel (ws.drop 16)

/-- The blocks of some bytes. -/
def blocks (bytes : Bytes) : List (List UInt32) :=
  let ws := words (pad bytes)
  blocksFrom ws.length ws

/-! ## Mixing -/

/-- A word with its bits moved around to the left. -/
def rotate (x : UInt32) (n : UInt32) : UInt32 := x <<< n ||| x >>> (32 - n)

/-- The function and the constant of a step. -/
def step (t : Nat) (s : Digest) : UInt32 :=
  if t < 20 then ((s.b &&& s.c) ||| (~~~s.b &&& s.d)) + 0x5A827999
  else if t < 40 then (s.b ^^^ s.c ^^^ s.d) + 0x6ED9EBA1
  else if t < 60 then ((s.b &&& s.c) ||| (s.b &&& s.d) ||| (s.c &&& s.d)) + 0x8F1BBCDC
  else (s.b ^^^ s.c ^^^ s.d) + 0xCA62C1D6

/-- The word of the schedule behind the sixteen words of a window. -/
def nextWord (window : List UInt32) : UInt32 :=
  rotate (window.getD 13 0 ^^^ window.getD 8 0 ^^^ window.getD 2 0 ^^^ window.getD 0 0) 1

/-- The last `left` of the eighty steps. The window begins with the word of the next step. -/
def steps : (left : Nat) → (window : List UInt32) → Digest → Digest
  | 0, _, s => s
  | left + 1, window, s =>
    let next := rotate s.a 5 + step (79 - left) s + s.e + window.headD 0
    steps left (window.drop 1 ++ [nextWord window]) ⟨next, s.a, rotate s.b 30, s.c, s.d⟩

/-- Mixes a block in. -/
def mixBlock (s : Digest) (block : List UInt32) : Digest :=
  let t := steps 80 block s
  ⟨s.a + t.a, s.b + t.b, s.c + t.c, s.d + t.d, s.e + t.e⟩

/-- Mixes blocks in. -/
def mix (s : Digest) (blocks : List (List UInt32)) : Digest := blocks.foldl mixBlock s

theorem mix_append (s : Digest) (front back : List (List UInt32)) :
    mix s (front ++ back) = mix (mix s front) back := by
  simp [mix]

/-- The digest of some bytes. -/
def ofBytes (bytes : Bytes) : Digest := mix start (blocks bytes)

/-- The digits of a digest. -/
def hex (s : Digest) : Text :=
  [s.a, s.b, s.c, s.d, s.e].flatMap fun w => Text.hex 8 w.toNat

end Digest

end LatexPreview
