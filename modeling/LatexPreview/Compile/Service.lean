import LatexPreview.Compile.Digest
import LatexPreview.Compile.Endpoint
import LatexPreview.Compile.Form
import LatexPreview.Number.Amount
import LatexPreview.Pattern.Cut
import LatexPreview.Workspace.OsError

/-!
# The compile service

A document is compiled by a service on the network, which is sent a form and answers with a
PDF or with the log of the compiler. What has been compiled once is kept in a cache.

* `ensureClass` makes a whole document of a snippet
* `CacheKey.of` is the key of a compiled document
* `plan` finds a document in the cache or makes a request
* `Reply.result` reads the reply of the service
* `compile` does all of it
-/

namespace LatexPreview

/-! ## Documents -/

/-- The command with which every whole document names its class. -/
def classCommand : Pattern := .caseless "\\documentclass"

/-- The lines around a snippet in front of it and behind it. -/
def snippetFrame : List String × List String :=
  (["\\documentclass\x7barticle\x7d",
      "\\usepackage\x7bamsmath,amssymb,graphicx,geometry\x7d",
      "\\geometry\x7ba4paper,margin=1in\x7d",
      "\\begin\x7bdocument\x7d"],
    ["\\end\x7bdocument\x7d"])

/-- A whole document as it is, or a snippet as the body of a document. -/
def ensureClass (latex : Text) : Text :=
  if classCommand.occursIn latex then latex
  else
    Text.join ['\n']
      (snippetFrame.1.map (·.toList) ++ latex :: snippetFrame.2.map (·.toList))

/-! ## The cache -/

/-- What a compiled document is kept under. -/
structure CacheKey where
  command : Text
  digest : Text
  deriving DecidableEq

namespace CacheKey

/-- The name of the part of the cache that holds compiled documents. -/
def area : Text := "texpreview.pdf".toList

/-- The key of a document that is compiled with some command. -/
def of (source command : Text) : CacheKey := ⟨command, (Digest.ofBytes (Utf8.encode source)).hex⟩

/-- The parts of a key. -/
def parts (k : CacheKey) : List Text := [area, k.command, k.digest]

end CacheKey

/-- A compiled document in the cache. -/
structure CacheEntry where
  key : CacheKey
  pdf : Bytes
  /-- For how many seconds the entry is to be kept. -/
  expiry : Amount

/-- The compiled documents that are kept, in the order of their arrival. -/
abbrev Cache := List CacheEntry

/-- The document that was last kept under a key. -/
def Cache.find? (cache : Cache) (key : CacheKey) : Option Bytes :=
  (cache.reverse.find? (·.key == key)).map (·.pdf)

/-! ## Requests and replies -/

/-- How a document is compiled. -/
structure CompileOptions where
  endpoint : Text := "https://latexonline.cc/compile".toList
  command : Text := "pdflatex".toList
  /-- For how many seconds a reply is waited for. -/
  timeout : Amount := .whole 60
  /-- For how many seconds a compiled document is kept. -/
  expiry : Amount := .whole 1800

/-- A form that is sent to an address. -/
structure Request where
  address : Text
  timeout : Amount
  fields : List (Text × Text)

namespace Request

/-- The request that a document be compiled. -/
def ofSource (address : Text) (o : CompileOptions) (source : Text) : Request where
  address := address
  timeout := o.timeout
  fields := [("text".toList, source), ("command".toList, o.command), ("force".toList, "true".toList)]

/-- The headers of a request: the kind of the wanted reply and the kind of the form. -/
def headers : List (String × String) :=
  [("Accept", "application/pdf"), ("Content-type", "application/x-www-form-urlencoded")]

/-- The form of a request. -/
def form (r : Request) : Text := Form.encode r.fields

end Request

/-- What comes back. -/
inductive Reply where
  /-- The service has answered with content of some type, if the type is told. -/
  | content (body : Bytes) (type : Option Text)
  /-- The service has refused, and tells why. -/
  | refusal (status : Int) (body : Bytes)
  /-- The service could not be reached. -/
  | unreachable (reason : Text)

/-- The kinds of failures. -/
inductive CompileFailure where
  /-- The compiler has failed. -/
  | compilation
  /-- The service has sent something else than a PDF. -/
  | unexpectedContent
  /-- The service could not be reached, or did not answer in time. -/
  | network
  deriving DecidableEq

/-- The name of a kind of failure. -/
def CompileFailure.name : CompileFailure → String
  | compilation => "compilation"
  | unexpectedContent => "unexpected-content"
  | network => "network"

/-- What becomes of a document. -/
inductive CompileResult where
  | success (pdf : Bytes) (cached : Bool)
  | failure (kind : CompileFailure) (log : Text)

/-- The log of every success. -/
def successLog : String := "Compilation successful."

/-- The text of some bytes, or another text if there is none. -/
def logOr (other : Text) (body : Bytes) : Text :=
  match Utf8.decodeLossy body with
  | [] => other
  | log => log

/-- What a reply says. -/
def Reply.result : Reply → CompileResult
  | content body type =>
    if (type.getD []).contains "application/pdf".toList then .success body false
    else .failure .unexpectedContent
      (logOr "Server returned unexpected content type.".toList body)
  | refusal status body =>
    .failure .compilation
      (logOr ("Compilation failed (HTTP ".toList ++ Text.ofInt status ++ ").".toList) body)
  | unreachable reason =>
    .failure .network ("Could not reach compilation server: ".toList ++ reason)

/-- The cache after a document has been compiled: only a new PDF is added. -/
def Cache.learn (cache : Cache) (key : CacheKey) (expiry : Amount) : CompileResult → Cache
  | .success pdf false => cache ++ [⟨key, pdf, expiry⟩]
  | _ => cache

/-! ## Compiling -/

/-- The location in messages about compiling. -/
def compileLocation : Text := "compile".toList

/-- How a document will be compiled. -/
inductive CompilePlan where
  /-- The cache holds the PDF. -/
  | stored (pdf : Bytes)
  /-- The service is asked. -/
  | ask (request : Request)

/-- The plan for a whole document. The endpoint matters only if the cache is of no help. -/
def plan (o : CompileOptions) (cache : Option Cache) (source : Text) :
    Except UnknownScheme CompilePlan :=
  match cache.bind (·.find? (.of source o.command)) with
  | some pdf => .ok (.stored pdf)
  | none => (address? o.endpoint).map fun address => .ask (.ofSource address o source)

/-- The message about a plan. -/
def CompilePlan.message (o : CompileOptions) : CompilePlan → Message
  | stored _ => .cacheHit compileLocation "compiled PDF".toList
  | ask _ => .progress compileLocation ("Sending document to ".toList ++ o.endpoint ++ "...".toList) []

/-- What happens when a document is compiled. -/
structure Compilation where
  result : CompileResult
  message : Message
  request : Option Request
  cache : Option Cache

/-- Compiles a document. The reply is the one that a request would get. -/
def compile (o : CompileOptions) (cache : Option Cache) (reply : Reply) (latex : Text) :
    Except UnknownScheme Compilation := do
  let source := ensureClass latex
  let p ← plan o cache source
  match p with
  | .stored pdf => pure ⟨.success pdf true, p.message o, none, cache⟩
  | .ask request =>
    let r := reply.result
    pure ⟨r, p.message o, some request, cache.map (·.learn (.of source o.command) o.expiry r)⟩

end LatexPreview
