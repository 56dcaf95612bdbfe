import ThriftSyntax.Syntax.Definition

/-!
# Numbering of enumerations

An element with a written value has that value as its id. The others have id 0, or are counted on
from the element before them, up to the greatest integer.
-/

namespace ThriftSyntax

inductive Numbering where
  | explicit
  | sequential
deriving DecidableEq, Repr, Inhabited

namespace Numbering

/-- The id after `id`. -/
def next (id : Int) : Int := min (id + 1) Numeral.maxInteger

/-- Gives ids in sequence, the first of them `id` unless a value is written. -/
def count (id : Int) : List EnumElement → List EnumElement
  | [] => []
  | element :: elements =>
    let id := element.value.getD id
    { element with id } :: count (next id) elements

def assign : Numbering → List EnumElement → List EnumElement
  | explicit, elements => elements.map fun element => { element with id := element.value.getD 0 }
  | sequential, elements => count 0 elements

end Numbering

end ThriftSyntax
