/-!
# Usage

What the program tells about itself.

* `usage` is shown in front of an error, `help` on demand
* `versionText` names the version and the place of the cache
-/

namespace LatexPreview

/-- The name of the program. -/
def programName : String := "texpv"

/-- The version of the program. -/
def programVersion : String := "0.1.0"

/-- How the program is called. -/
def usage : String :=
  "usage: texpv [-h] [-v] [-o OUTPUT.html] [--pdf OUTPUT.pdf] [-c] [-f]
             [--math \x7bmathjax,mathml,raw\x7d] [--no-sanitize]
             [--cover COVER.json] [--endpoint URL] [--timeout SECONDS]
             [--clean] [-l]
             INPUT.tex
"

/-- What the program does and what its options mean. -/
def help : String :=
  usage ++ "
Check a LaTeX (.tex) document for structural problems, and produce an HTML preview of it. Optionally, compile it to PDF using a remote service. See README.md for key details.

positional arguments:
  INPUT.tex             Input LaTeX (.tex) file

options:
  -h, --help            show this help message and exit
  -v, --version         show program's version number and exit
  -o OUTPUT.html, --output OUTPUT.html
                        Output HTML file. (By default, this is based on the
                        input filename.)
  --pdf OUTPUT.pdf      Output PDF file, when compiling with -c/--compile. (By
                        default, this is based on the output HTML filename.)
  -c, --compile         Also compile the document to PDF, using a remote
                        compilation service.
  -f, --force           With -c/--compile, compile even if validation finds
                        errors. (Warnings never prevent compilation.)
  --math \x7bmathjax,mathml,raw\x7d
                        How to show math in the preview: \"mathjax\" (typeset in
                        the browser), \"mathml\" (converted ahead of time), or
                        \"raw\" (the LaTeX source, unchanged). The default is
                        \"mathjax\".
  --no-sanitize         Do not sanitize the generated HTML. Only use this for
                        documents you trust.
  --cover COVER.json    Insert an assignment cover page, with details taken
                        from the given JSON file, after \"\\begin\x7bdocument\x7d\".
  --endpoint URL        The compilation service to use. By default, this is
                        https://latexonline.cc/compile.
  --timeout SECONDS     How long to wait for the compilation service. By
                        default, this is 60 seconds.
  --clean               Clear the compile cache before building the document.
  -l, --live            Keep running, and rebuild automatically whenever the
                        source file changes.
"

/-- The version and the directory of the cache. -/
def versionText (cacheDir : List Char) : List Char :=
  ("TeXpreview " ++ programVersion ++ "\n(compile cache: ").toList ++ cacheDir ++ ")\n".toList

/-- The text about an error in the arguments. -/
def usageError (message : List Char) : List Char :=
  (usage ++ programName ++ ": error: ").toList ++ message ++ ['\n']

end LatexPreview
