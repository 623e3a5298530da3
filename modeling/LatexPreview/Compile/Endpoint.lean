import LatexPreview.Text.Blank
import LatexPreview.Text.Quoted

/-!
# Endpoints

The address of a service, as it is written by a user: perhaps in angle brackets, and
with a fragment that is not sent if it is empty.

* `Address.ofText` reads an address
* `address?` refuses an address without a scheme
-/

namespace LatexPreview

/-- An address of a service. -/
structure Address where
  location : Text
  fragment : Text

namespace Address

/-- What stands between angle brackets around a whole text, or the text itself. -/
def withoutBrackets (s : Text) : Text :=
  match s with
  | '<' :: inner => if inner.getLast? = some '>' then Text.trim inner.dropLast else s
  | _ => s

/-- The text without a word that some put in front of an address. -/
def withoutLabel (s : Text) : Text :=
  match Text.dropFront? "URL:".toList s with
  | some address => address.trim
  | none => s

/-- The address that a user has written. -/
def ofText (s : Text) : Address :=
  let address := withoutLabel (withoutBrackets s.trim)
  match Text.splitLast? '#' address with
  | some (location, fragment) => ⟨location, fragment⟩
  | none => ⟨address, []⟩

/-- The text of an address. -/
def text (a : Address) : Text :=
  if a.fragment.isEmpty then a.location else a.location ++ '#' :: a.fragment

/-- Does the address begin with a scheme, that is with a word in front of a colon? -/
def hasScheme (a : Address) : Bool :=
  let isEnd (c : Char) : Bool := c == '/' || c == ':'
  !(a.location.takeWhile (!isEnd ·)).isEmpty
    && (a.location.dropWhile (!isEnd ·)).head? == some ':'

end Address

/-- An address without a scheme. -/
structure UnknownScheme where
  address : Text

/-- The wording of a refusal. -/
def UnknownScheme.message (e : UnknownScheme) : Text :=
  "unknown url type: ".toList ++ e.address.quoted

/-- The address to which requests to an endpoint are sent. -/
def address? (endpoint : Text) : Except UnknownScheme Text :=
  let a := Address.ofText endpoint
  if a.hasScheme then .ok a.text else .error ⟨a.text⟩

end LatexPreview
