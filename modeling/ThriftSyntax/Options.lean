import ThriftSyntax.Syntax.Numbering

/-!
# Options

The two choices that a caller has in reading a document.
-/

namespace ThriftSyntax

/-- Whether a list may end with a separator. -/
inductive TrailingSeparator where
  | allow
  | reject
deriving DecidableEq, Repr, Inhabited

structure Options where
  numbering : Numbering := .explicit
  /-- For the annotations of a namespace; any other list of annotations may end with one. -/
  namespaceTrailing : TrailingSeparator := .reject
deriving DecidableEq, Repr, Inhabited

end ThriftSyntax
