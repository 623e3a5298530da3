import LatexPreview.CommandLine.Timeout
import LatexPreview.MathText.Restore
import LatexPreview.Number.Amount
import LatexPreview.Text.Digit
import LatexPreview.Text.Quoted

/-!
# Arguments

The arguments of the program are options and the name of the source, in any order. A long
option may be cut short as long as it stays unique; short options may share an argument, and
the value of an option may stand in the same argument or be the next one. Behind two dashes
no argument is an option, and two dashes are no value: an option with them has an empty list
of values.

* `Action` is what an option does, `Action.spellings` are the ways of writing options
* `classify` tells options from words, `bundle` divides an argument with several options
* `parseArguments` reads all arguments
-/

namespace LatexPreview

/-! ## Options -/

/-- An option without a value. -/
inductive Switch where
  | compile
  | force
  | noSanitize
  | clean
  | live
  deriving DecidableEq

/-- An option with a value. -/
inductive Setting where
  | output
  | pdf
  | math
  | cover
  | endpoint
  | timeout
  deriving DecidableEq

/-- What an option does. -/
inductive Action where
  | help
  | version
  | switch (s : Switch)
  | setting (s : Setting)
  deriving DecidableEq

namespace Action

/-- The ways of writing options. -/
def spellings : List (Text × Action) :=
  [("-h".toList, help), ("--help".toList, help),
    ("-v".toList, version), ("--version".toList, version),
    ("-o".toList, setting .output), ("--output".toList, setting .output),
    ("--pdf".toList, setting .pdf),
    ("-c".toList, switch .compile), ("--compile".toList, switch .compile),
    ("-f".toList, switch .force), ("--force".toList, switch .force),
    ("--math".toList, setting .math),
    ("--no-sanitize".toList, switch .noSanitize),
    ("--cover".toList, setting .cover),
    ("--endpoint".toList, setting .endpoint),
    ("--timeout".toList, setting .timeout),
    ("--clean".toList, switch .clean),
    ("-l".toList, switch .live), ("--live".toList, switch .live)]

/-- The option that is written in some way. -/
def ofSpelling? (s : Text) : Option Action := spellings.lookup s

/-- All ways of writing an option. -/
def name (a : Action) : Text :=
  Text.join ['/'] ((spellings.filter (·.2 == a)).map (·.1))

end Action

/-- Why the arguments cannot be read. -/
structure UsageError where
  message : Text

/-- An error about one argument. -/
def UsageError.about (name message : Text) : UsageError :=
  ⟨"argument ".toList ++ name ++ ": ".toList ++ message⟩

/-! ## Telling options from words -/

/-- What an argument is. -/
inductive ArgumentKind where
  /-- A word. -/
  | word
  /-- The two dashes behind which all are words. -/
  | dashes
  /-- An option, perhaps with more behind it. -/
  | option (action : Action) (isLong : Bool) (attached : Option Text)
  /-- Something like an option that is none. -/
  | unknown

/-- The parts of a text around the first equals sign. -/
def atEquals (s : Text) : Text × Option Text :=
  match Text.find? ['='] s with
  | some (front, value) => (front, some value)
  | none => (s, none)

/-- The options of which a text may be a short form, each with what is attached. -/
def abbreviated (s : Text) : List (Text × ArgumentKind) :=
  if s.startsWith ['-', '-'] then
    let (front, attached) := atEquals s
    (Action.spellings.filter fun (spelling, _) => spelling.startsWith front).map
      fun (spelling, a) => (spelling, .option a true attached)
  else
    (Action.spellings.filter fun (spelling, _) => spelling == s.take 2).map
      fun (spelling, a) => (spelling, .option a false (some (s.drop 2)))

/-- Is a text a negative number? A line end behind it is overlooked. -/
def isNegativeNumber (s : Text) : Bool :=
  let s := if s.getLast? = some '\n' then s.dropLast else s
  match s with
  | '-' :: s =>
    match s.dropWhile isDigit with
    | [] => !s.isEmpty
    | c :: fraction => c == '.' && !fraction.isEmpty && fraction.all isDigit
  | _ => false

/-- Tells whether an argument that is not just two dashes is an option. -/
def classify (s : Text) : Except UsageError ArgumentKind :=
  if s.head? ≠ some '-' then .ok .word
  else match Action.ofSpelling? s with
    | some a => .ok (.option a (s.startsWith ['-', '-']) none)
    | none =>
      if s.length = 1 then .ok .word
      else match atEquals s with
        | (front, some attached) =>
          match Action.ofSpelling? front with
          | some a => .ok (.option a (s.startsWith ['-', '-']) (some attached))
          | none => guess s
        | _ => guess s
where
  /-- Looks for a short form. -/
  guess (s : Text) : Except UsageError ArgumentKind :=
    match abbreviated s with
    | [(_, kind)] => .ok kind
    | [] => .ok (if isNegativeNumber s || s.contains [' '] then .word else .unknown)
    | several =>
      .error ⟨"ambiguous option: ".toList ++ s ++ " could match ".toList
        ++ Text.join ", ".toList (several.map (·.1))⟩

/-- The arguments with what they are. -/
def classifyAll : List Text → Except UsageError (List (Text × ArgumentKind))
  | [] => .ok []
  | s :: more =>
    if s = ['-', '-'] then .ok ((s, .dashes) :: more.map fun s => (s, .word))
    else do
      let kind ← classify s
      let rest ← classifyAll more
      pure ((s, kind) :: rest)

/-! ## Several options in one argument -/

/-- What an argument with options asks for. -/
structure Bundle where
  /-- The options and their values; an option without a value has an empty one. -/
  actions : List (Action × Text)
  /-- The last option, if its value has to be the next argument. -/
  waiting : Option Setting := none

/-- The bundle with an option in front of the others. -/
def Bundle.after (a : Action) (b : Bundle) : Bundle := { b with actions := (a, []) :: b.actions }

/-- A value that does not belong to an option. -/
def ignoredValue (a : Action) (value : Text) : UsageError :=
  .about a.name ("ignored explicit argument ".toList ++ value.quoted)

/-- An option with nothing behind it. -/
def Bundle.single : Action → Bundle
  | .setting s => { actions := [], waiting := some s }
  | a => { actions := [(a, [])] }

/-- The options of an argument that begins with a short option and has more behind it. Behind an
option without a value another one has to follow. -/
def bundleShort (a : Action) : Text → Except UsageError Bundle
  | [] =>
    match a with
    | .setting s => .ok { actions := [(.setting s, [])] }
    | a => .error (ignoredValue a [])
  | c :: rest =>
    match a with
    | .setting s => .ok { actions := [(.setting s, c :: rest)] }
    | a =>
      match Action.ofSpelling? ['-', c] with
      | none => .error (ignoredValue a (c :: rest))
      | some next =>
        if rest.isEmpty then .ok ((Bundle.single next).after a)
        else (bundleShort next rest).map (·.after a)

/-- The options of an argument. -/
def bundle (a : Action) (isLong : Bool) (attached : Option Text) : Except UsageError Bundle :=
  match attached with
  | none => .ok (.single a)
  | some text =>
    if isLong then
      match a with
      | .setting s => .ok { actions := [(.setting s, text)] }
      | a => .error (ignoredValue a text)
    else bundleShort a text

/-! ## Reading -/

/-- What the options tell. An empty file name counts as none. -/
structure Options where
  output : Text := []
  pdf : Text := []
  compile : Bool := false
  force : Bool := false
  math : Text := "mathjax".toList
  noSanitize : Bool := false
  cover : Text := []
  endpoint : Text := "https://latexonline.cc/compile".toList
  timeout : Amount := .whole 60
  clean : Bool := false
  live : Bool := false

/-- What ends the reading of arguments. -/
inductive EarlyEnd where
  | help
  | version
  | error (e : UsageError)

namespace Options

/-- The options with one more switched on. -/
def turnOn (o : Options) : Switch → Options
  | .compile => { o with compile := true }
  | .force => { o with force := true }
  | .noSanitize => { o with noSanitize := true }
  | .clean => { o with clean := true }
  | .live => { o with live := true }

/-- How an empty list of values is written. -/
def emptyList : Text := "[]".toList

/-- The options with an empty list for the value of one. For a file name it counts as none; the
other values are not looked at. -/
def assignNothing (o : Options) : Setting → Options
  | .output => { o with output := [] }
  | .pdf => { o with pdf := [] }
  | .cover => { o with cover := [] }
  | .endpoint => { o with endpoint := emptyList }
  | .math => { o with math := emptyList }
  | .timeout => { o with timeout := .missing }

/-- The options with the value of one set. -/
def assign (o : Options) (s : Setting) (value : Text) : Except UsageError Options :=
  if value = ['-', '-'] then .ok (o.assignNothing s)
  else match s with
    | .output => .ok { o with output := value }
    | .pdf => .ok { o with pdf := value }
    | .cover => .ok { o with cover := value }
    | .endpoint => .ok { o with endpoint := value }
    | .math =>
      let choices := MathMode.all.map (·.name.toList)
      if choices.contains value then .ok { o with math := value }
      else .error (.about (Action.setting s).name
        ("invalid choice: ".toList ++ value.quoted ++ " (choose from ".toList
          ++ Text.join ", ".toList (choices.map (·.quoted)) ++ [')']))
    | .timeout =>
      match readTimeout value with
      | .ok x => .ok { o with timeout := .real x }
      | .error e => .error (.about (Action.setting s).name e.message.toList)

/-- Does what an option asks for. -/
def perform (o : Options) (action : Action × Text) : Except EarlyEnd Options :=
  match action with
  | (.help, _) => .error .help
  | (.version, _) => .error .version
  | (.switch s, _) => .ok (o.turnOn s)
  | (.setting s, value) => (o.assign s value).mapError .error

end Options

/-- What has been read so far. -/
structure ArgumentState where
  input : Option Text := none
  options : Options := {}
  /-- What is neither an option nor the source. -/
  extra : List Text := []

namespace ArgumentState

/-- Puts an argument aside. -/
def putAside (st : ArgumentState) (s : Text) : ArgumentState :=
  { st with extra := st.extra ++ [s] }

/-- Does what options ask for. -/
def perform (st : ArgumentState) (actions : List (Action × Text)) :
    Except EarlyEnd ArgumentState := do
  let options ← actions.foldlM Options.perform st.options
  pure { st with options }

/-- Reads classified arguments. Two dashes next to the name of the source belong to it. -/
def read (st : ArgumentState) : List (Text × ArgumentKind) → Except EarlyEnd ArgumentState
  | [] => .ok st
  | (s, .unknown) :: more => (st.putAside s).read more
  | (s, .word) :: more =>
    if st.input.isSome then (st.putAside s).read more
    else match more with
      | (_, .dashes) :: more => { st with input := some s }.read more
      | more => { st with input := some s }.read more
  | (s, .dashes) :: more =>
    if st.input.isSome then (st.putAside s).read more
    else match more with
      | (word, _) :: more => { st with input := some word }.read more
      | [] => (st.putAside s).read []
  | (_, .option a isLong attached) :: more =>
    match bundle a isLong attached with
    | .error e => .error (.error e)
    | .ok ⟨actions, none⟩ =>
      match st.perform actions with
      | .error e => .error e
      | .ok st => st.read more
    | .ok ⟨actions, some setting⟩ =>
      match more with
      | (value, .word) :: more =>
        match st.perform (actions ++ [(.setting setting, value)]) with
        | .error e => .error e
        | .ok st => st.read more
      | _ =>
        .error (.error (.about (Action.setting setting).name "expected one argument".toList))

end ArgumentState

/-- The arguments of a call. -/
structure Arguments where
  input : Text
  options : Options

/-- Reads the arguments of a call. Options that end the reading do so before anything that
follows them is looked at, but not before all options have been recognised. -/
def parseArguments (args : List Text) : Except EarlyEnd Arguments := do
  let classified ← (classifyAll args).mapError .error
  let st ← ArgumentState.read {} classified
  match st.input with
  | none => .error (.error ⟨"the following arguments are required: INPUT.tex".toList⟩)
  | some input =>
    if st.extra.isEmpty then pure ⟨input, st.options⟩
    else .error (.error
      ⟨"unrecognized arguments: ".toList ++ Text.join [' '] st.extra⟩)

end LatexPreview
