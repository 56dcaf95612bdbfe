/-!
# Kinds of tokens

Reserved words, punctuation marks and blanks have one spelling each, given by a table; a `Kind`
is one of these or a class of lexemes.
-/

namespace ThriftSyntax

/-- The reserved words. -/
inductive Keyword where
  | «namespace» | enum | senum | const | service | struct | «include» | cppInclude | typedef | union
  | exception | optional | required | map | set | list | oneway | void | throws
deriving DecidableEq, Repr, Inhabited

namespace Keyword

def all : List Keyword :=
  [«namespace», enum, senum, const, service, struct, «include», cppInclude, typedef, union,
    exception, optional, required, map, set, list, oneway, void, throws]

def text : Keyword → String
  | «namespace» => "namespace"
  | enum => "enum"
  | senum => "senum"
  | const => "const"
  | service => "service"
  | struct => "struct"
  | «include» => "include"
  | cppInclude => "cpp_include"
  | typedef => "typedef"
  | union => "union"
  | exception => "exception"
  | optional => "optional"
  | required => "required"
  | map => "map"
  | set => "set"
  | list => "list"
  | oneway => "oneway"
  | void => "void"
  | throws => "throws"

/-- The reserved word with this spelling. -/
def ofText? (word : String) : Option Keyword :=
  all.find? (·.text == word)

theorem ofText?_eq_some_iff {word : String} {keyword : Keyword} :
    ofText? word = some keyword ↔ keyword.text = word := by
  constructor
  · intro h
    simpa using List.find?_some h
  · rintro rfl
    cases keyword <;> decide

end Keyword

/-- The punctuation marks, one character each. -/
inductive Punct where
  | semicolon | colon | equals | quote | apostrophe | leftParen | rightParen | leftBrace
  | rightBrace | leftBracket | rightBracket | less | greater | comma | dot | plus | minus | star
deriving DecidableEq, Repr, Inhabited

namespace Punct

def all : List Punct :=
  [semicolon, colon, equals, quote, apostrophe, leftParen, rightParen, leftBrace, rightBrace,
    leftBracket, rightBracket, less, greater, comma, dot, plus, minus, star]

def char : Punct → Char
  | semicolon => ';'
  | colon => ':'
  | equals => '='
  | quote => '"'
  | apostrophe => '\''
  | leftParen => '('
  | rightParen => ')'
  | leftBrace => '{'
  | rightBrace => '}'
  | leftBracket => '['
  | rightBracket => ']'
  | less => '<'
  | greater => '>'
  | comma => ','
  | dot => '.'
  | plus => '+'
  | minus => '-'
  | star => '*'

/-- The mark that this character is. -/
def ofChar? (c : Char) : Option Punct :=
  all.find? (·.char == c)

theorem ofChar?_eq_some_iff {c : Char} {mark : Punct} :
    ofChar? c = some mark ↔ mark.char = c := by
  constructor
  · intro h
    simpa using List.find?_some h
  · rintro rfl
    cases mark <;> decide

end Punct

/-- The blanks, one character each. -/
inductive Blank where
  | space | lineFeed | carriageReturn | tab
deriving DecidableEq, Repr, Inhabited

namespace Blank

def all : List Blank := [space, lineFeed, carriageReturn, tab]

def char : Blank → Char
  | space => ' '
  | lineFeed => '\n'
  | carriageReturn => '\r'
  | tab => '\t'

/-- The blank that this character is. -/
def ofChar? (c : Char) : Option Blank :=
  all.find? (·.char == c)

theorem ofChar?_eq_some_iff {c : Char} {blank : Blank} :
    ofChar? c = some blank ↔ blank.char = c := by
  constructor
  · intro h
    simpa using List.find?_some h
  · rintro rfl
    cases blank <;> decide

end Blank

/-- What a token is. -/
inductive Kind where
  | endOfInput
  | ident
  | string
  | number
  | comment
  | blank (blank : Blank)
  | punct (mark : Punct)
  | keyword (word : Keyword)
deriving DecidableEq, Repr, Inhabited

namespace Kind

/-- The kind of a word: reserved, or an identifier. -/
def ofWord (word : String) : Kind :=
  match Keyword.ofText? word with
  | some reserved => .keyword reserved
  | none => .ident

def isKeyword : Kind → Bool
  | keyword _ => true
  | _ => false

def isBlank : Kind → Bool
  | blank _ => true
  | _ => false

/-- Blanks and comments, which may stand between any two tokens. -/
def isTrivia : Kind → Bool
  | blank _ | comment => true
  | _ => false

/-- Whether a token of this kind may be a word of a name; `reserved` admits reserved words. -/
def isWord (reserved : Bool) : Kind → Bool
  | ident => true
  | keyword _ => reserved
  | _ => false

end Kind

end ThriftSyntax
