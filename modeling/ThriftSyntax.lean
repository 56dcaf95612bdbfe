import ThriftSyntax.Parse
import ThriftSyntax.Syntax.Node
import ThriftSyntax.Proofs.Lossless
import ThriftSyntax.Proofs.Grammatical
import ThriftSyntax.Proofs.Legible
import ThriftSyntax.Proofs.Insertion
import ThriftSyntax.Proofs.Span.Tree
import ThriftSyntax.Proofs.Session.Lexing
import ThriftSyntax.Proofs.Reindex
import ThriftSyntax.Proofs.Session.Progress
import ThriftSyntax.Proofs.Fragment
import ThriftSyntax.Proofs.Concatenation
import ThriftSyntax.Proofs.Options.Numbering
import ThriftSyntax.Proofs.Options.Trailing
import ThriftSyntax.Proofs.Index.Children
import ThriftSyntax.Proofs.Index.Tree
import ThriftSyntax.Proofs.Errors.Location
import ThriftSyntax.Proofs.Errors.Foresight
import ThriftSyntax.Proofs.Errors.Trivia
import ThriftSyntax.Proofs.Errors.Prefix
import ThriftSyntax.Proofs.Session.Place
import ThriftSyntax.Proofs.Session.WellFormed
import ThriftSyntax.Proofs.Session.Eager
import ThriftSyntax.Proofs.Session.Composition
import ThriftSyntax.Proofs.Rendering.Exact
import ThriftSyntax.Proofs.Juxtaposition.Tree
import ThriftSyntax.Proofs.TypedName.Qualified
import ThriftSyntax.Proofs.TypedName.Rename
import ThriftSyntax.Proofs.Enumeration
import ThriftSyntax.Proofs.Naming
import ThriftSyntax.Proofs.Rendering.Annotation
import ThriftSyntax.Proofs.Removal
import ThriftSyntax.Proofs.Decimal
import ThriftSyntax.Proofs.Session.Name
import ThriftSyntax.Proofs.Session.PutBack
import ThriftSyntax.Proofs.Session.Quoted
import ThriftSyntax.Proofs.Session.Lookahead
