import ThriftSyntax.Grammar.Definition

/-!
# Reading documents

A document, read from text or from bytes, as a syntax tree.
-/

namespace ThriftSyntax

namespace SyntaxTree

/-- The tree of a text, or the first error in it. -/
def ofText (text : String) (options : Options) : Except Error SyntaxTree :=
  match Grammar.document options (.ofText text.toList) with
  | .ok document reader => .ok ⟨reader.chain, document⟩
  | .error error _ => .error error

/-- The tree of a text in UTF-8, under the default options. -/
def ofBytes (bytes : ByteArray) : Except Error SyntaxTree :=
  match String.fromUTF8? bytes with
  | some text => ofText text {}
  | none => .error .notUtf8

end SyntaxTree

end ThriftSyntax
