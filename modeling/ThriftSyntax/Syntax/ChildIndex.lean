import ThriftSyntax.Token.Chain

/-!
# Indexed children

`Children` are the parts of a declaration that have names: the fields of a structure, say. Their
`ChildIndex` finds one by its first token or by its name, and answers with its position. A key that
is entered again stands for the later child, a name for the earlier one.
-/

namespace ThriftSyntax

/-- The key of the first token of each child, with the child's name, as they were entered. -/
structure ChildIndex where
  entries : List (Token.Key × String)
deriving DecidableEq, Repr, Inhabited

namespace ChildIndex

def empty : ChildIndex := ⟨[]⟩

/-- The last child entered with this key. -/
def byToken? (index : ChildIndex) (key : Token.Key) : Option Nat :=
  (index.entries.zipIdx.reverse.find? (·.1.1 == key)).map (·.2)

/-- The first child with this name. -/
def byName? (index : ChildIndex) (name : String) : Option Nat :=
  index.entries.findIdx? (·.2 == name)

/-- The number of keys. -/
def size (index : ChildIndex) : Nat := (index.entries.map (·.1)).eraseDups.length

def isEmpty (index : ChildIndex) : Bool := index.entries.isEmpty

end ChildIndex

structure Children (α : Type) where
  items : List α
  index : ChildIndex
deriving DecidableEq, Inhabited

namespace Children

variable {α : Type}

def empty : Children α := ⟨[], .empty⟩

/-- Indexes items by the first token of the span and by the name that each has. -/
def ofItems (chain : TokenChain) (span : α → Span) (name : α → String) (items : List α) :
    Children α :=
  ⟨items, ⟨items.map fun item => ((chain.key? (span item).first).getD default, name item)⟩⟩

def size (children : Children α) : Nat := children.items.length

/-- The first child with this name. -/
def byName? (children : Children α) (name : String) : Option α :=
  (children.index.byName? name).bind (children.items[·]?)

/-- The child that begins with this token. -/
def byToken? (children : Children α) (key : Token.Key) : Option α :=
  (children.index.byToken? key).bind (children.items[·]?)

end Children

end ThriftSyntax
