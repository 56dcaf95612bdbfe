import ThriftSyntax.Token.Basic

/-!
# Token chains

A `TokenChain` is the tokens of a text in order. A token is named by its place in the chain, from 0;
a `Span` is a run of tokens, and its text is spelled out from the chain.
-/

namespace ThriftSyntax

/-- The tokens from `first` to `last`, both included. -/
structure Span where
  first : Nat
  last : Nat
deriving DecidableEq, Repr, Inhabited

namespace Span

/-- The span of one token. -/
def single (id : Nat) : Span := ⟨id, id⟩

end Span

structure TokenChain where
  tokens : Array Token
deriving DecidableEq, Repr, Inhabited

/-- A token with its place in a chain. -/
structure Link where
  id : Nat
  token : Token
deriving DecidableEq, Repr, Inhabited

namespace Link

def kind (link : Link) : Kind := link.token.kind

def raw (link : Link) : String := link.token.raw

def location (link : Link) : Location := link.token.location

end Link

namespace TokenChain

def empty : TokenChain := ⟨#[]⟩

def size (chain : TokenChain) : Nat := chain.tokens.size

def isEmpty (chain : TokenChain) : Bool := chain.tokens.isEmpty

def push (chain : TokenChain) (token : Token) : TokenChain :=
  ⟨chain.tokens.push token⟩

def get? (chain : TokenChain) (id : Nat) : Option Token := chain.tokens[id]?

def toList (chain : TokenChain) : List Token := chain.tokens.toList

/-- The token at `id`, with its place. -/
def link? (chain : TokenChain) (id : Nat) : Option Link :=
  (chain.get? id).map (Link.mk id)

/-- The last token. -/
def last? (chain : TokenChain) : Option Link :=
  chain.tokens.back?.map (Link.mk (chain.size - 1))

/-- The place before `id`, if a token stands there. -/
def prevId? (chain : TokenChain) (id : Nat) : Option Nat :=
  if 0 < id ∧ id - 1 < chain.size then some (id - 1) else none

/-- The place after `id`, if a token stands there. -/
def nextId? (chain : TokenChain) (id : Nat) : Option Nat :=
  if id + 1 < chain.size then some (id + 1) else none

/-- The end of input, once it has been chained. -/
def ending? (chain : TokenChain) : Option Link :=
  chain.last?.filter (·.kind = .endOfInput)

/-- The key of the token at `id`. -/
def key? (chain : TokenChain) (id : Nat) : Option Token.Key :=
  (chain.get? id).map Token.key

/-- The texts of the tokens in order. -/
def spell (tokens : List Token) : String :=
  String.join (tokens.map Token.raw)

/-- The text of the whole chain. -/
def source (chain : TokenChain) : String :=
  spell chain.toList

theorem spell_append (xs ys : List Token) : spell (xs ++ ys) = spell xs ++ spell ys := by
  simp [spell, String.join_append]

@[simp] theorem toList_push (chain : TokenChain) (token : Token) :
    (chain.push token).toList = chain.toList ++ [token] := by
  simp [toList, push]

/-- The text of a span; what lies beyond the last token is left out. -/
def text (chain : TokenChain) (span : Span) : String :=
  spell (chain.tokens.extract span.first (span.last + 1)).toList

end TokenChain

end ThriftSyntax
