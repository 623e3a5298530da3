import LatexPreview.Json.Reader

/-!
# Configuration of a cover page

A cover page is described by a JSON object whose keys are the names of the fields. What
the fields hold is not looked at before the page is written.

* `CoverField` are the fields
* `CoverPage` gives each field a value, `CoverPage.plain` their defaults
* `CoverPage.read` reads a configuration
-/

namespace LatexPreview

/-- What a cover page tells. -/
inductive CoverField where
  | enabled
  | studentName
  | rollNo
  | yearSection
  | subject
  | subjectCode
  | subjectName
  | assignmentNo
  | questions
  | institution
  | department
  | heading
  | academicYear
  deriving DecidableEq

namespace CoverField

/-- All fields. -/
def all : List CoverField :=
  [enabled, studentName, rollNo, yearSection, subject, subjectCode, subjectName, assignmentNo,
    questions, institution, department, heading, academicYear]

/-- The name of a field in a configuration. -/
def name : CoverField → String
  | enabled => "enabled"
  | studentName => "student_name"
  | rollNo => "roll_no"
  | yearSection => "year_section"
  | subject => "subject"
  | subjectCode => "subject_code"
  | subjectName => "subject_name"
  | assignmentNo => "assignment_no"
  | questions => "questions"
  | institution => "institution"
  | department => "department"
  | heading => "heading"
  | academicYear => "academic_year"

/-- The field with a name. -/
def ofName? (s : Text) : Option CoverField := all.find? (·.name.toList == s)

/-- What a field holds if a configuration does not tell. -/
def default : CoverField → Json
  | enabled => .bool true
  | questions | institution => .arr []
  | heading => .str "Assignment Submission Details".toList
  | _ => .str []

end CoverField

/-- A value for each field. -/
abbrev CoverPage := CoverField → Json

/-- Why a configuration cannot be read. -/
inductive CoverError where
  | json (error : Json.ReadError)
  | notObject
  | unexpectedKey (key : Text)
  | reservedKey

namespace CoverError

/-- The word that the program itself uses for a configuration. -/
def reserved : Text := "self".toList

/-- The name of the kind of an error. -/
def kind : CoverError → String
  | json e =>
    match e.kind with
    | .digitLimit _ => "ValueError"
    | .nesting _ => "RecursionError"
    | _ => "JSONDecodeError"
  | notObject => "ValueError"
  | unexpectedKey _ | reservedKey => "TypeError"

/-- Is a configuration nested too deep to be read at all? -/
def isNesting : CoverError → Bool
  | json e =>
    match e.kind with
    | .nesting _ => true
    | _ => false
  | _ => false

/-- The wording of an error. -/
def message : CoverError → Text
  | json e => e.message
  | notObject => "cover page configuration must be a JSON object".toList
  | unexpectedKey key =>
    "CoverPageConfig.__init__() got an unexpected keyword argument '".toList ++ key ++ ['\'']
  | reservedKey =>
    "CoverPageConfig.__init__() got multiple values for argument '".toList ++ reserved ++ ['\'']

end CoverError

namespace CoverPage

/-- A cover page with nothing told about it. -/
def plain : CoverPage := CoverField.default

/-- The cover page with another value in a field. -/
def set (page : CoverPage) (field : CoverField) (value : Json) : CoverPage :=
  fun f => if f = field then value else page f

/-- The cover page that the members of an object describe. The first bad key is reported. -/
def ofMembers (members : List (Text × Json)) : Except CoverError CoverPage :=
  members.foldlM (fun page (key, value) =>
    if key = CoverError.reserved then .error .reservedKey
    else match CoverField.ofName? key with
      | some field => .ok (page.set field value)
      | none => .error (.unexpectedKey key)) plain

/-- The cover page that a text describes. -/
def read (s : Text) : Except CoverError CoverPage :=
  match Json.read s with
  | .error e => .error (.json e)
  | .ok (.obj members) => ofMembers members
  | .ok _ => .error .notObject

end CoverPage

end LatexPreview
