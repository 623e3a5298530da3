import LatexPreview.Cover.Config
import LatexPreview.Source.Tags

/-!
# The cover page itself

The source of a cover page: a heading, a table of details and a table with a row for
each question. Text is escaped, so that it shows as it is. A value may be any
sequence of texts; other values cannot be written.

* `escapeLatex` escapes a text, `escapeValue` the texts in a value
* `coverBody` is the source of a cover page
-/

namespace LatexPreview

/-! ## Escaping -/

/-- The characters with a meaning of their own in LaTeX, and how they are written. -/
def latexEscapes : List (Char × Text) :=
  [('\\', "\\textbackslash\x7b\x7d".toList), ('&', "\\&".toList), ('%', "\\%".toList),
    ('$', "\\$".toList), ('#', "\\#".toList), ('_', "\\_".toList), ('{', ['\\', '{']),
    ('}', ['\\', '}']), ('~', "\\textasciitilde\x7b\x7d".toList),
    ('^', "\\textasciicircum\x7b\x7d".toList)]

/-- A character as it is written in LaTeX. -/
def escapeLatexChar (c : Char) : Text := (latexEscapes.lookup c).getD [c]

/-- A text as it is written in LaTeX. -/
def escapeLatex (s : Text) : Text := s.flatMap escapeLatexChar

/-! ## Values -/

/-- Why a value cannot be written. -/
inductive BodyError where
  /-- A value that is no sequence. -/
  | notIterable (kind : String)
  /-- A sequence within a sequence. -/
  | unhashable (kind : String)
  /-- An item of a sequence that is no text. -/
  | notText (index : Nat) (kind : String)
  deriving DecidableEq

/-- The wording of a refusal. -/
def BodyError.message : BodyError → Text
  | notIterable kind => '\'' :: kind.toList ++ "' object is not iterable".toList
  | unhashable kind => "unhashable type: '".toList ++ kind.toList ++ ['\'']
  | notText index kind =>
    "sequence item ".toList ++ Text.ofNat index ++ ": expected str instance, ".toList
      ++ kind.toList ++ " found".toList

namespace Json

/-- The name of the kind of a value. -/
def kindName : Json → String
  | null => "NoneType"
  | bool _ => "bool"
  | int _ => "int"
  | float _ => "float"
  | str _ => "str"
  | arr _ => "list"
  | obj _ => "dict"

/-- The items of a value: the characters of a text, the items of an array, the keys of an
object. -/
def elements : Json → Except BodyError (List Json)
  | str s => .ok (s.map fun c => .str [c])
  | arr items => .ok items
  | obj members => .ok (members.map fun (key, _) => .str key)
  | v => .error (.notIterable v.kindName)

/-- Is a value one that counts as given? -/
def isTruthy : Json → Bool
  | null => false
  | bool b => b
  | int n => n != 0
  | float x => !x.isZero
  | str s => !s.isEmpty
  | arr items => !items.isEmpty
  | obj members => !members.isEmpty

end Json

/-- An item as it is written in LaTeX: a text of one special character is escaped. -/
def escapeItem (item : Json) : Except BodyError Json :=
  match item with
  | .arr _ | .obj _ => .error (.unhashable item.kindName)
  | .str [c] => .ok (.str (escapeLatexChar c))
  | _ => .ok item

/-- The text of the items, the first of which has an index. -/
def joinItems : Nat → List Json → Except BodyError Text
  | _, [] => .ok []
  | n, .str s :: items => do
    let more ← joinItems (n + 1) items
    pure (s ++ more)
  | n, item :: _ => .error (.notText n item.kindName)

/-- A value as it is written in LaTeX. Items are escaped before they are joined. -/
def escapeValue (v : Json) : Except BodyError Text := do
  let items ← v.elements
  let escaped ← items.mapM escapeItem
  joinItems 0 escaped

/-! ## The page -/

/-- A command with an argument. -/
def applied (command : String) (content : Text) : Text := command.toList ++ braced content

/-- The labels of the details, with the fields that fill them. -/
def coverDetails : List (String × Option CoverField) :=
  [("Subject", some .subject),
    ("Subject Code", some .subjectCode),
    ("Subject Name", some .subjectName),
    ("Name of the Student", some .studentName),
    ("Roll No.", some .rollNo),
    ("Year / Section", some .yearSection),
    ("Assignment No.", some .assignmentNo),
    ("Marks (Max 3)", none),
    ("Assignment Moodle Uploaded Date", none),
    ("Faculty Sign with Name \\& Date", none)]

/-- The row of a detail. -/
def detailRow (page : CoverPage) (detail : String × Option CoverField) :
    Except BodyError Text := do
  let value ← match detail.2 with
    | some field => escapeValue (page field)
    | none => pure []
  pure (applied "\\textbf" detail.1.toList ++ " & ".toList ++ value ++ " \\\\ \\hline".toList)

/-- The row of a question with a number. -/
def questionRow (question : Json × Nat) : Except BodyError Text := do
  let text ← escapeValue question.1
  pure (applied "\\textbf" ('Q' :: Text.ofNat question.2 ++ [':']) ++ ' ' :: text
    ++ " \\\\[1.5cm] \\hline".toList)

/-- A line of the institution's name; the first one is large. -/
def institutionLine (line : Json × Nat) : Except BodyError Text := do
  let text ← escapeValue line.1
  pure ((if line.2 = 0 then applied "\\textbf" ("\\Large ".toList ++ text) else text)
    ++ "\\\\".toList)

/-- The lines of the heading. -/
def headingLines (page : CoverPage) : Except BodyError (List Text) := do
  let institution ← (← (page .institution).elements).zipIdx.mapM institutionLine
  let department ←
    if (page .department).isTruthy then do
      let text ← escapeValue (page .department)
      pure [applied "\\textbf" ("\\large ".toList ++ text) ++ "\\\\[0.5cm]".toList]
    else pure []
  let heading ← escapeValue (page .heading)
  let year ←
    if (page .academicYear).isTruthy then do
      let text ← escapeValue (page .academicYear)
      pure [text]
    else pure []
  pure (institution ++ department
    ++ [applied "\\textbf" ("\\Large ".toList ++ heading) ++ "\\\\".toList] ++ year)

/-- Lines in an environment that centres them. -/
def centred (lines : List Text) : List Text :=
  beginTag "center".toList :: lines ++ [endTag "center".toList]

/-- A table with the given columns. -/
def ruledTable (columns : Text) (rows : Text) : List Text :=
  [beginTag "tabular".toList ++ braced columns, "\\hline".toList, rows, endTag "tabular".toList]

/-- Space below a part of the page. -/
def verticalSpace (size : String) : Text := applied "\\vspace" size.toList

/-- How far the rows of the tables that follow are apart. -/
def rowStretch (factor : String) : Text :=
  "\\renewcommand".toList ++ braced "\\arraystretch".toList ++ braced factor.toList

/-- A column of some width. -/
def column (width : String) : Text := applied "p" width.toList ++ ['|']

/-- The source of a cover page. Details are written first, then questions, then the heading: of
several values that cannot be written, the first in this order is reported. -/
def coverBody (page : CoverPage) : Except BodyError Text := do
  let details ← coverDetails.mapM (detailRow page)
  let questions ← ((← (page .questions).elements).zipIdx 1).mapM questionRow
  let heading ← headingLines page
  let newline : Text := ['\n']
  pure (Text.join newline
    ([[]] ++ centred [Text.join newline heading]
      ++ [[], verticalSpace "0.8cm", [], rowStretch "1.5", []]
      ++ centred (ruledTable ('|' :: column "6cm" ++ column "8cm") (Text.join newline details))
      ++ [[], verticalSpace "1cm", [], rowStretch "2", []]
      ++ centred (ruledTable ('|' :: column "14cm") (Text.join newline questions))
      ++ [[], "\\newpage".toList, []]))

end LatexPreview
