import LatexPreview.Cover.Body
import LatexPreview.Text.Word

/-!
# A cover page in a document

A cover page stands at the very beginning of a document. Its tables need packages,
which are loaded in front of that beginning unless the document loads them already.

* `ensurePackages` loads the packages
* `injectCoverPage` puts a cover page in
-/

namespace LatexPreview

open Pattern

/-- The packages that a cover page needs. -/
def coverPackages : List String := ["array", "geometry"]

/-- The tag at which a document begins. -/
def documentOpening : Pattern := opening "document"

/-- A command that loads a package, perhaps among others and with options, in capital or small
letters. -/
def loadsPackage (package : String) : Pattern :=
  caseless "\\usepackage"
    ++ optional (one (· == '[') ++ many (noneOf "]") ++ one (· == ']'))
    ++ one (· == '{') ++ many (noneOf "\x7d")
    ++ edge atBoundary ++ caseless package ++ edge atBoundary
    ++ many (noneOf "\x7d") ++ one (· == '}')

/-- The document with a line in front of its beginning that loads a package. -/
def loadPackage (package : String) (latex : Text) : Text :=
  (documentOpening.cutFirst latex).replace fun h =>
    applied "\\usepackage" package.toList ++ '\n' :: h.matched

/-- The document with the packages that a cover page needs. -/
def ensurePackages (latex : Text) : Text :=
  coverPackages.foldl (fun s package =>
    if (loadsPackage package).occursIn s then s else loadPackage package s) latex

/-- The document with a cover page, unless the page is switched off. -/
def injectCoverPage (latex : Text) (page : CoverPage) : Except BodyError Text :=
  if (page .enabled).isTruthy then do
    let body ← coverBody page
    pure ((documentOpening.cutFirst (ensurePackages latex)).replace fun h =>
      h.matched ++ '\n' :: body)
  else pure latex

end LatexPreview
