import LatexPreview.Pattern.Cut

/-!
# Commands, arguments and tags

The pieces of LaTeX source that the rest of the library looks for, as texts and as
patterns.

* `beginTag`, `endTag` are the tags around an environment
* `argument`, `longArgument` are arguments in braces, inside of which one more level of
  braces may stand
* `looseArgument`, `looseOption` end at the first closing brace or bracket of the line
-/

namespace LatexPreview

/-! ## Texts -/

/-- A text in braces. -/
def braced (s : Text) : Text := '{' :: s ++ ['}']

/-- The tag that opens an environment. -/
def beginTag (env : Text) : Text := "\\begin".toList ++ braced env

/-- The tag that closes an environment. -/
def endTag (env : Text) : Text := "\\end".toList ++ braced env

/-! ## Patterns -/

namespace Pattern

/-- A backslash and the name of a command. -/
def command (name : String) : Pattern := lit ('\\' :: name.toList)

/-- A command whose name is not the beginning of a longer one. -/
def fullCommand (name : String) : Pattern := command name ++ wordEnd

/-- The tag that opens an environment. -/
def opening (env : String) : Pattern := lit (beginTag env.toList)

/-- The tag that closes an environment. -/
def closing (env : String) : Pattern := lit (endTag env.toList)

/-- Everything up to what follows. -/
def body : Pattern := capture "body" (fewest any)

/-- An argument ends at the first closing brace, which the line must hold. -/
def looseArgument : Pattern := one (· == '{') ++ fewest inLine ++ one (· == '}')

/-- An optional argument of some characters ends at the first closing bracket. -/
def optionOf (inside : Pattern) : Pattern :=
  optional (one (· == '[') ++ fewest inside ++ one (· == ']'))

/-- An optional argument ends at the first closing bracket, which the line must hold. -/
def looseOption : Pattern := optionOf inLine

/-- Text of some characters in which one level of braces may stand. -/
def nested (inside : Pattern) : Pattern :=
  many (alt inside (one (· == '{') ++ many inside ++ one (· == '}')))

/-- An argument within a line, kept under a label. -/
def argument (label : String) : Pattern :=
  one (· == '{') ++ capture label (nested (noneOf "\x7b\x7d\n")) ++ one (· == '}')

/-- An argument of one line or more, kept under a label. -/
def longArgument (label : String) : Pattern :=
  one (· == '{') ++ capture label (nested (noneOf "\x7b\x7d")) ++ one (· == '}')

end Pattern

end LatexPreview
