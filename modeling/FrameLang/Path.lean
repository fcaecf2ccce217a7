import FrameLang.Text

/-!
# Paths

A path is a text. Its last component stands behind the last slash or backslash, and the extension of
a component begins at its last dot.
-/

namespace FrameLang

namespace Path

/-- Whether a character separates components. -/
def isSeparator (c : Char) : Bool :=
  c = '/' || c = '\\'

/-- The path up to its last separator, which is included. -/
def directory (path : Text) : Text :=
  (path.reverse.dropWhile fun c => !isSeparator c).reverse

/-- The path behind its last separator. -/
def component (path : Text) : Text :=
  (path.reverse.takeWhile fun c => !isSeparator c).reverse

/-- A component without its extension. -/
def stem (name : Text) : Text :=
  match name.reverse.dropWhile (· ≠ '.') with
  | [] => name
  | _ :: rest => rest.reverse

/-- The path with the extension of its last component replaced, or added if it has none. -/
def withExtension (path ext : Text) : Text :=
  directory path ++ stem (component path) ++ ext

end Path

end FrameLang
