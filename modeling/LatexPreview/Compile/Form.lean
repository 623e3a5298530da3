import LatexPreview.Text.Quoted
import LatexPreview.Text.Utf8

/-!
# Forms

The fields of a form as one line of text, as it is sent to a server: names and values are
written in UTF-8, a space as a plus sign, and each byte that is not a plain letter, digit
or one of four marks as a percent sign with two digits.

* `Form.encodeByte` writes a byte
* `Form.encode` writes the fields
* `encodeByte_plain`: no byte is written with a character that divides fields
-/

namespace LatexPreview

namespace Form

/-- Is the byte written as it is? -/
def isPlain (b : UInt8) : Bool :=
  let c := Char.ofNat b.toNat
  b < 0x80 && (c.isAlphanum || c == '_' || c == '.' || c == '-' || c == '~')

/-- The text of a byte. -/
def encodeByte (b : UInt8) : Text :=
  if isPlain b then [Char.ofNat b.toNat]
  else if b = 0x20 then ['+']
  else '%' :: (Text.hex 2 b.toNat).map Char.toUpper

/-- No byte is written with a character that divides fields or names from values. -/
theorem encodeByte_plain (b : UInt8) : '&' ∉ encodeByte b ∧ '=' ∉ encodeByte b := by
  have h : ∀ n : Fin 256, '&' ∉ encodeByte (UInt8.ofNat n) ∧ '=' ∉ encodeByte (UInt8.ofNat n) := by
    decide +kernel
  simpa using h ⟨b.toNat, b.toNat_lt⟩

/-- The text of a name or a value. -/
def encodeText (s : Text) : Text := (Utf8.encode s).flatMap encodeByte

/-- The fields in one line. -/
def encode (fields : List (Text × Text)) : Text :=
  Text.join ['&'] (fields.map fun (name, value) => encodeText name ++ '=' :: encodeText value)

end Form

end LatexPreview
