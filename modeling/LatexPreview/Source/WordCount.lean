import LatexPreview.Source.Tags
import LatexPreview.Text.Blank

/-!
# Counting words

An estimate of the number of words in LaTeX source. The tags of environments go
first, then each command with arguments gives way to its last argument, then bare
commands and special characters go; what is left is counted.

* `proseOf` is the text that is left
* `countWords` is the number of its words
-/

namespace LatexPreview

open Pattern

/-- A tag of an environment. -/
def looseTag : Pattern := .alt (command "begin" ++ looseArgument) (command "end" ++ looseArgument)

/-- The name of a command. -/
def commandName : Pattern := one (· == '\\') ++ many1 (one Char.isAlpha)

/-- A command with arguments. -/
def commandWithArguments : Pattern :=
  commandName ++ optional (one (· == '*'))
    ++ many1 (capture "argument" (one (· == '{') ++ many (noneOf "\x7d") ++ one (· == '}')))

/-- The characters with a meaning of their own. -/
def isSpecial (c : Char) : Bool := "\\\x7b\x7d$%&_^~#[]".toList.contains c

/-- The words of a text, with what stands between them. -/
def proseOf (s : Text) : Text :=
  let untagged := looseTag.erase s
  let unwrapped := commandWithArguments.replace
    (fun h => (h.get "argument").filter fun c => c != '{' && c != '}') untagged
  (commandName.erase unwrapped).filter (!isSpecial ·)

/-- The number of words in a text. -/
def countWords (s : Text) : Nat := (proseOf s).words.length

end LatexPreview
