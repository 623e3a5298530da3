import LatexPreview.Json.Value
import LatexPreview.Number.Read

/-!
# Reading JSON

The grammar of JSON, with three additions: the words for infinity and for a value
that is not a number stand for numbers. The text must hold one value and nothing
else but white space. Whole numbers may not be too long, nor values nested too deep.

* `Json.ErrorKind` lists what can be wrong, `Json.ReadError.message` words it with
  the line and the column
* `Json.read` reads a text
-/

namespace LatexPreview

namespace Json

/-! ## Errors -/

/-- What is wrong with a text. -/
inductive ErrorKind where
  | byteOrderMark
  | value
  | propertyName
  | colon
  | comma
  | extraData
  | unterminatedString
  | controlCharacter
  | escape
  | unicodeEscape
  | digitLimit (digits : Nat)
  | nesting (container : String)

/-- The most digits that a whole number may have. -/
def maxDigits : Nat := 4300

/-- How many arrays and objects may be open at one place. -/
def maxNesting : Nat := 989

/-- The first thing that is wrong with a text, and where. -/
structure ReadError where
  kind : ErrorKind
  /-- The text in front of the place. -/
  before : Text

namespace ReadError

/-- The wording without the place. -/
def reason : ErrorKind → String
  | .byteOrderMark => "Unexpected UTF-8 BOM (decode using utf-8-sig)"
  | .value => "Expecting value"
  | .propertyName => "Expecting property name enclosed in double quotes"
  | .colon => "Expecting ':' delimiter"
  | .comma => "Expecting ',' delimiter"
  | .extraData => "Extra data"
  | .unterminatedString => "Unterminated string starting at"
  | .controlCharacter => "Invalid control character at"
  | .escape => "Invalid \\escape"
  | .unicodeEscape => "Invalid \\uXXXX escape"
  | .digitLimit _ => "Exceeds the limit"
  | .nesting _ => "maximum recursion depth exceeded"

/-- The wording with the line, the column and the position. -/
def message (e : ReadError) : Text :=
  match e.kind with
  | .digitLimit n =>
    "Exceeds the limit (".toList ++ Text.ofNat maxDigits
      ++ " digits) for integer string conversion: value has ".toList ++ Text.ofNat n
      ++ " digits; use sys.set_int_max_str_digits() to increase the limit".toList
  | .nesting container =>
    (reason e.kind).toList ++ " while decoding a JSON ".toList ++ container.toList
      ++ " from a unicode string".toList
  | kind =>
    let line := e.before.count '\n' + 1
    let column := (e.before.reverse.takeWhile (· != '\n')).length + 1
    (reason kind).toList ++ ": line ".toList ++ Text.ofNat line
      ++ " column ".toList ++ Text.ofNat column
      ++ " (char ".toList ++ Text.ofNat e.before.length ++ [')']

end ReadError

/-- What is wrong at a place, which is given by the text behind it. -/
structure Fault where
  kind : ErrorKind
  rest : Text

/-- The text behind the white space at its front. -/
def skipSpace (s : Text) : Text :=
  s.dropWhile fun c => c == ' ' || c == '\t' || c == '\n' || c == '\r'

/-! ## Strings -/

/-- The value of a hexadecimal digit. -/
def hexValue? (c : Char) : Option Nat :=
  if c.isDigit then some (c.toNat - '0'.toNat)
  else if 'a' ≤ c ∧ c ≤ 'f' then some (c.toNat - 'a'.toNat + 10)
  else if 'A' ≤ c ∧ c ≤ 'F' then some (c.toNat - 'A'.toNat + 10)
  else none

/-- Four hexadecimal digits and something behind them. -/
def hexUnit? : Text → Option (Nat × Text)
  | a :: b :: c :: d :: e :: s => do
    let n := [← hexValue? a, ← hexValue? b, ← hexValue? c, ← hexValue? d]
    pure (n.foldl (fun v d => 16 * v + d) 0, e :: s)
  | _ => none

/-- Is the number the first half of a pair of units? -/
def isHighUnit (n : Nat) : Bool := 0xD800 ≤ n && n < 0xDC00

/-- Is the number the second half of a pair of units? -/
def isLowUnit (n : Nat) : Bool := 0xDC00 ≤ n && n < 0xE000

/-- The character of one unit; half a pair is replaced. -/
def unitChar (n : Nat) : Char := if isHighUnit n || isLowUnit n then '\uFFFD' else Char.ofNat n

/-- Reads the escape behind `\u`. A pair of escapes may stand for one character. -/
def readUnicode (s : Text) : Except Fault (Char × Text) :=
  match hexUnit? s with
  | none => .error ⟨.unicodeEscape, 'u' :: s⟩
  | some (high, rest) =>
    match rest with
    | '\\' :: 'u' :: t =>
      -- the second escape is looked at only where one more character follows it
      if isHighUnit high && 4 < t.length then
        match hexUnit? t with
        | none => .error ⟨.unicodeEscape, 'u' :: t⟩
        | some (low, rest') =>
          if isLowUnit low then
            .ok (Char.ofNat (0x10000 + (high - 0xD800) * 0x400 + (low - 0xDC00)), rest')
          else .ok (unitChar high, rest)
      else .ok (unitChar high, rest)
    | _ => .ok (unitChar high, rest)

/-- The character that an escape of one letter stands for. -/
def simpleEscape? : Char → Option Char
  | '"' => some '"'
  | '\\' => some '\\'
  | '/' => some '/'
  | 'b' => some '\x08'
  | 'f' => some '\x0c'
  | 'n' => some '\n'
  | 'r' => some '\r'
  | 't' => some '\t'
  | _ => none

/-- Reads the rest of a string, at most `fuel` characters of it; `start` is the text from its
opening quote on. -/
def readString (start : Text) : (fuel : Nat) → Text → Except Fault (Text × Text)
  | 0, _ => .error ⟨.unterminatedString, start⟩
  | fuel + 1, s =>
    match s with
    | [] => .error ⟨.unterminatedString, start⟩
    | '"' :: s => .ok ([], s)
    | '\\' :: [] => .error ⟨.unterminatedString, start⟩
    | '\\' :: 'u' :: s => do
      let (c, rest) ← readUnicode s
      let (more, rest) ← readString start fuel rest
      pure (c :: more, rest)
    | '\\' :: e :: rest =>
      match simpleEscape? e with
      | none => .error ⟨.escape, s⟩
      | some c => do
        let (more, rest) ← readString start fuel rest
        pure (c :: more, rest)
    | c :: rest =>
      if c.toNat < 0x20 then .error ⟨.controlCharacter, s⟩
      else do
        let (more, rest) ← readString start fuel rest
        pure (c :: more, rest)

/-! ## Numbers -/

/-- The fraction at the front of a text: its digits and what follows. -/
def takeFraction (s : Text) : Text × Text :=
  match s with
  | '.' :: d :: t =>
    if d.isDigit then (d :: t.takeWhile Char.isDigit, t.dropWhile Char.isDigit) else ([], s)
  | _ => ([], s)

/-- The exponent at the front of a text, if there is one, and what follows. -/
def takeExponent (s : Text) : Option Int × Text :=
  match s with
  | [] => (none, s)
  | c :: t =>
    if c = 'e' ∨ c = 'E' then
      let (negative, t) := Double.takeSign t
      let digits := t.takeWhile Char.isDigit
      if digits.isEmpty then (none, s)
      else
        let n : Int := Double.digitsValue digits
        (some (if negative then -n else n), t.dropWhile Char.isDigit)
    else (none, s)

/-- Reads a number; `start` is the text from its sign on. -/
def readNumber (start : Text) : Except Fault (Json × Text) :=
  let (negative, s) : Bool × Text := match start with
    | '-' :: s => (true, s)
    | s => (false, s)
  let whole := match s with
    | '0' :: _ => ['0']
    | s => s.takeWhile Char.isDigit
  if whole.isEmpty then .error ⟨.value, start⟩
  else
    let (fraction, s) := takeFraction (s.drop whole.length)
    let (exponent, s) := takeExponent s
    let value := Double.digitsValue (whole ++ fraction)
    if fraction.isEmpty && exponent.isNone then
      if whole.length > maxDigits then .error ⟨.digitLimit whole.length, start⟩
      else .ok (.int (if negative then -value else value), s)
    else .ok (.float (.ofDecimal negative value (exponent.getD 0 - fraction.length)), s)

/-! ## Values -/

/-- The words that stand for values. -/
def constants : List (String × Json) :=
  [("null", .null), ("true", .bool true), ("false", .bool false), ("NaN", .float .nan),
    ("Infinity", .float (.infinite false)), ("-Infinity", .float (.infinite true))]

/-- The word at the front of a text, if it stands for a value. -/
def constant? (s : Text) : Option (Json × Text) :=
  constants.findSome? fun (word, value) => (Text.dropFront? word.toList s).map fun rest => (value, rest)

mutual

/-- Reads a value in which at most `room` arrays and objects are open at one place; each value,
item and member takes a unit of fuel. -/
def readValue : (fuel room : Nat) → Text → Except Fault (Json × Text)
  | 0, _, s => .error ⟨.value, s⟩
  | fuel + 1, room, s =>
    match s with
    | [] => .error ⟨.value, s⟩
    | '"' :: t => (readString s (t.length + 1) t).map fun (w, rest) => (.str w, rest)
    | '{' :: t =>
      match room with
      | 0 => .error ⟨.nesting "object", s⟩
      | room + 1 =>
        match skipSpace t with
        | '}' :: rest => .ok (.obj [], rest)
        | t => (readMembers fuel room [] t).map fun (members, rest) => (.obj members, rest)
    | '[' :: t =>
      match room with
      | 0 => .error ⟨.nesting "array", s⟩
      | room + 1 =>
        match skipSpace t with
        | ']' :: rest => .ok (.arr [], rest)
        | t => (readItems fuel room t).map fun (items, rest) => (.arr items, rest)
    | _ =>
      match constant? s with
      | some found => .ok found
      | none => readNumber s

/-- Reads the items of an array up to its end. -/
def readItems : (fuel room : Nat) → Text → Except Fault (List Json × Text)
  | 0, _, s => .error ⟨.value, s⟩
  | fuel + 1, room, s => do
    let (item, s) ← readValue fuel room s
    match skipSpace s with
    | ']' :: rest => pure ([item], rest)
    | ',' :: t =>
      let (items, rest) ← readItems fuel room (skipSpace t)
      pure (item :: items, rest)
    | s => .error ⟨.comma, s⟩

/-- Reads the members of an object up to its end, behind those already read. -/
def readMembers : (fuel room : Nat) → List (Text × Json) → Text →
    Except Fault (List (Text × Json) × Text)
  | 0, _, _, s => .error ⟨.propertyName, s⟩
  | fuel + 1, room, members, s =>
    match s with
    | '"' :: t => do
      let (key, s) ← readString s (t.length + 1) t
      match skipSpace s with
      | ':' :: t =>
        let (value, s) ← readValue fuel room (skipSpace t)
        let members := put key value members
        match skipSpace s with
        | '}' :: rest => pure (members, rest)
        | ',' :: t => readMembers fuel room members (skipSpace t)
        | s => .error ⟨.comma, s⟩
      | s => .error ⟨.colon, s⟩
    | s => .error ⟨.propertyName, s⟩

end

/-- Reads a whole text. -/
def read (s : Text) : Except ReadError Json :=
  let result : Except Fault Json :=
    match s with
    | '\uFEFF' :: _ => .error ⟨.byteOrderMark, s⟩
    | _ => do
      let (value, rest) ← readValue (2 * s.length + 2) maxNesting (skipSpace s)
      match skipSpace rest with
      | [] => pure value
      | rest => .error ⟨.extraData, rest⟩
  result.mapError fun f => ⟨f.kind, Text.between s f.rest⟩

end Json

end LatexPreview
