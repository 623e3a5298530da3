import Mathlib
import LatexPreview.Compile.Service

/-!
# Keys of compiled documents

A document is kept under the digits of a digest of its bytes. If digests tell documents apart, so
do keys.

* `encode_injective`: a text can be read back from its bytes
* `Digest.hex_injective`: a digest can be read back from its digits
* `CacheKey.of_eq_iff`: keys are equal only for one document and one command
-/

namespace LatexPreview

theorem Utf8.encode_injective {s t : Text} (h : Utf8.encode s = Utf8.encode t) : s = t := by
  have hbytes : s.utf8Encode = t.utf8Encode := congrArg List.toByteArray h
  have hread := List.utf8Decode?_utf8Encode (l := s)
  rw [hbytes, List.utf8Decode?_utf8Encode] at hread
  simpa using hread.symm

/-! ## Digits of digests -/

/-- The value of a hexadecimal digit. -/
def hexValue (c : Char) : Nat := if c.isDigit then c.toNat - '0'.toNat else c.toNat - 'a'.toNat + 10

/-- The number that hexadecimal digits tell. -/
def readHex (s : Text) : Nat := s.foldl (fun n c => 16 * n + hexValue c) 0

theorem hexValue_digitChar {n : Nat} (h : n < 16) : hexValue (Nat.digitChar n) = n := by
  revert n
  decide

theorem readHex_concat (s : Text) (c : Char) : readHex (s ++ [c]) = 16 * readHex s + hexValue c := by
  rw [readHex, List.foldl_concat, readHex]

theorem readHex_zeros (n : Nat) (s : Text) : readHex (List.replicate n '0' ++ s) = readHex s := by
  have hzeros : (List.replicate n '0').foldl (fun n c => 16 * n + hexValue c) 0 = 0 := by
    induction n with
    | zero => rfl
    | succ n ih => rwa [List.replicate_succ, List.foldl_cons]
  rw [readHex, List.foldl_append, hzeros, readHex]

theorem readHex_toDigits (n : Nat) : readHex (Nat.toDigits 16 n) = n := by
  induction n using Nat.strong_induction_on with
  | _ n ih =>
    rw [Nat.toDigits_eq_if (by decide)]
    split
    · rename_i hn
      simpa [readHex] using hexValue_digitChar hn
    · rw [readHex_concat, ih _ (by omega), hexValue_digitChar (Nat.mod_lt _ (by decide))]
      omega

theorem readHex_hex (width n : Nat) : readHex (Text.hex width n) = n := by
  rw [Text.hex, Text.padLeft, readHex_zeros, readHex_toDigits]

theorem length_hex {width n : Nat} (hwidth : 0 < width) (h : n < 16 ^ width) :
    (Text.hex width n).length = width := by
  have hle := (Nat.length_toDigits_le_iff (by decide) hwidth).2 h
  rw [Text.hex, Text.padLeft, List.length_append, List.length_replicate]
  omega

/-- The digits of a word, followed by others. -/
theorem eq_of_hex_append_eq {m n : UInt32} {s t : Text}
    (h : Text.hex 8 m.toNat ++ s = Text.hex 8 n.toNat ++ t) : m = n ∧ s = t := by
  have hlength : ∀ w : UInt32, (Text.hex 8 w.toNat).length = 8 := fun w =>
    length_hex (by decide) w.toNat_lt
  obtain ⟨hdigits, hrest⟩ := List.append_inj h ((hlength m).trans (hlength n).symm)
  have hvalue := congrArg readHex hdigits
  rw [readHex_hex, readHex_hex] at hvalue
  exact ⟨UInt32.toNat_inj.1 hvalue, hrest⟩

theorem Digest.hex_injective {a b : Digest} (h : a.hex = b.hex) : a = b := by
  simp only [hex, List.flatMap_cons] at h
  obtain ⟨ha, h⟩ := eq_of_hex_append_eq h
  obtain ⟨hb, h⟩ := eq_of_hex_append_eq h
  obtain ⟨hc, h⟩ := eq_of_hex_append_eq h
  obtain ⟨hd, h⟩ := eq_of_hex_append_eq h
  obtain ⟨he, -⟩ := eq_of_hex_append_eq h
  cases a
  cases b
  simp_all

/-! ## Keys -/

/-- The digests of two documents differ, unless the documents are the same. -/
def Distinguished (s t : Text) : Prop :=
  Digest.ofBytes (Utf8.encode s) = Digest.ofBytes (Utf8.encode t) → Utf8.encode s = Utf8.encode t

theorem CacheKey.of_eq_iff {s t command command' : Text} (h : Distinguished s t) :
    CacheKey.of s command = CacheKey.of t command' ↔ s = t ∧ command = command' := by
  constructor
  · intro heq
    obtain ⟨hcommand, hdigest⟩ := CacheKey.mk.inj heq
    exact ⟨Utf8.encode_injective (h (Digest.hex_injective hdigest)), hcommand⟩
  · rintro ⟨rfl, rfl⟩
    rfl

end LatexPreview
