/-!
# Inline styles

The styles of converted documents. Colours are variables, so that the page that
hosts a document chooses the palette; a page of its own gets a light one.

* `Style` holds one constant for each kind of element
* `Style.palette` are the variables and their values
-/

namespace LatexPreview

namespace Style

/-! ## Fonts -/

/-- The font of headings. -/
def headingFont : String := "font-family:'Space Grotesk',sans-serif"

/-- The font of code. -/
def monoFont : String := "font-family:'JetBrains Mono',monospace"

/-! ## Text -/

/-- The block of title, author and date. -/
def header : String :=
  "margin-bottom:2.5rem;text-align:center;padding-bottom:1.5rem;" ++
    "border-bottom:1px solid var(--p-border)"

/-- The title. -/
def title : String :=
  "font-size:1.875rem;font-weight:600;color:var(--p-head);margin-bottom:0.75rem;" ++
    "letter-spacing:-0.025em;" ++ headingFont

/-- The author. -/
def author : String := "font-size:0.875rem;color:var(--p-accent)"

/-- The date. -/
def date : String := "font-size:0.75rem;color:var(--p-muted);margin-top:0.375rem"

/-- Bold text. -/
def bold : String := "font-weight:600;color:var(--p-text)"

/-- Slanted text. -/
def italic : String := "color:var(--p-sec)"

/-- Code within a line. -/
def code : String :=
  monoFont ++
    ";font-size:0.85em;padding:0.15em 0.3em;background:var(--p-code);border-radius:4px;" ++
    "color:var(--p-accent)"

/-- Underlined text. -/
def underline : String := "text-decoration-color:var(--p-muted)"

/-- A link with a text of its own. -/
def link : String := "color:var(--p-accent);text-decoration:underline;text-underline-offset:2px"

/-- A link that shows its address. -/
def url : String := "color:var(--p-accent);" ++ monoFont ++ ";font-size:0.85em"

/-- The mark of a footnote. -/
def footnote : String := "color:var(--p-accent);cursor:help;font-size:0.75em"

/-! ## Headings -/

/-- The heading of a section. -/
def sectionHeading : String :=
  "font-size:1.25rem;font-weight:600;margin-top:2.5rem;margin-bottom:1.25rem;" ++
    "color:var(--p-head);border-bottom:1px solid var(--p-border);padding-bottom:0.5rem;" ++
    headingFont

/-- The heading of a subsection. -/
def subsectionHeading : String :=
  "font-size:1.125rem;font-weight:600;margin-top:1.75rem;margin-bottom:0.75rem;" ++
    "color:var(--p-text);" ++ headingFont

/-- The heading of a subsubsection. -/
def subsubsectionHeading : String :=
  "font-size:1rem;font-weight:600;margin-top:1.5rem;margin-bottom:0.5rem;" ++
    "color:var(--p-text);" ++ headingFont

/-! ## Blocks -/

/-- The box of a code listing. -/
def listing : String :=
  "background:var(--p-code);border:1px solid var(--p-border);border-radius:8px;" ++
    "padding:1rem;overflow-x:auto;margin:1.25rem 0"

/-- The code in a listing. -/
def listingCode : String := monoFont ++ ";font-size:0.8rem;color:var(--p-text);line-height:1.6"

/-- A quotation. -/
def quote : String :=
  "border-left:3px solid var(--p-accent);margin:1.25rem 0;padding:0.75rem 1.25rem;" ++
    "color:var(--p-sec);font-style:italic;background:var(--p-code);" ++
    "border-radius:0 8px 8px 0"

/-- The box around a table. -/
def tableFrame : String := "overflow-x:auto;margin:1.25rem 0"

/-- A table. -/
def table : String :=
  "width:100%;border-collapse:collapse;border:1px solid var(--p-border);" ++
    "border-radius:8px;overflow:hidden"

/-- A cell of the first row. -/
def headCell : String :=
  "padding:0.5rem 0.75rem;font-weight:600;color:var(--p-head);" ++
    "border-bottom:2px solid var(--p-border);text-align:left;font-size:0.8rem"

/-- A cell of another row. -/
def cell : String :=
  "padding:0.5rem 0.75rem;color:var(--p-sec);border-bottom:1px solid var(--p-border);" ++
    "font-size:0.8rem"

/-- The caption of a table. -/
def caption : String :=
  "caption-side:bottom;padding:0.5rem;font-size:0.75rem;color:var(--p-muted);" ++
    "font-style:italic"

/-- A table without columns. -/
def plainTable : String := "margin:1.25rem 0"

/-- A list with bullets. -/
def bulletList : String := "margin:1.25rem 0 1.25rem 1.25rem;list-style:disc;font-size:0.875rem"

/-- A list with numbers. -/
def numberedList : String :=
  "margin:1.25rem 0 1.25rem 1.25rem;list-style:decimal;font-size:0.875rem"

/-- An item of either list. -/
def listItem : String := "padding-left:0.375rem;margin-bottom:0.375rem;color:var(--p-sec)"

/-- A list of terms. -/
def termList : String := "margin:1.25rem 0;font-size:0.875rem"

/-- A term. -/
def term : String := "font-weight:600;color:var(--p-text)"

/-- What is said about a term. -/
def termText : String := "margin-left:1.25rem;margin-bottom:0.5rem;color:var(--p-sec)"

/-- A paragraph. -/
def paragraph : String :=
  "margin-bottom:1.25rem;line-height:1.75;color:var(--p-sec);text-align:justify;" ++
    "font-size:0.875rem"

/-! ## Colours -/

/-- The colours of a page of its own, in the order of their names. -/
def palette : List (String × String) :=
  [("--p-accent", "#2563eb"),
    ("--p-border", "#e5e7eb"),
    ("--p-code", "#f3f4f6"),
    ("--p-head", "#111827"),
    ("--p-muted", "#6b7280"),
    ("--p-sec", "#374151"),
    ("--p-text", "#1f2937")]

end Style

end LatexPreview
