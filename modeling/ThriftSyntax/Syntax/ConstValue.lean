import ThriftSyntax.Token.Chain
import ThriftSyntax.Token.Numeral

/-!
# Constant values

A constant value is a scalar (a number, a string or a name), a list or a map. A number keeps the
text it was written with, and has an integer and a floating-point value besides.
-/

namespace ThriftSyntax

/-- The forms of a constant value that is no container. -/
inductive ScalarForm where
  | integer | decimal | string | name
deriving DecidableEq, Repr, Inhabited

/-- The text of a string is the one between its quotes. -/
inductive ConstValue where
  | scalar (form : ScalarForm) (text : String) (span : Span)
  | list (items : List ConstValue) (span : Span)
  | map (entries : List (ConstValue × ConstValue)) (span : Span)
deriving Inhabited

namespace ConstValue

def span : ConstValue → Span
  | scalar _ _ span | list _ span | map _ span => span

def text? : ConstValue → Option String
  | scalar _ text _ => some text
  | list .. | map .. => none

def integer? : ConstValue → Option Int
  | scalar .integer text _ => Numeral.toInteger? text
  | _ => none

def float? : ConstValue → Option Float
  | scalar .integer text _ | scalar .decimal text _ => Numeral.float? text
  | _ => none

def entries? : ConstValue → Option (List (ConstValue × ConstValue))
  | map entries _ => some entries
  | scalar .. | list .. => none

/-- The number of items or entries of a container. -/
def size? : ConstValue → Option Nat
  | scalar .. => none
  | list items _ => some items.length
  | map entries _ => some entries.length

/-- The values directly within a container, in the order of the text. -/
def parts : ConstValue → List ConstValue
  | scalar .. => []
  | list items _ => items
  | map entries _ => entries.flatMap fun (key, value) => [key, value]

/-! ## Equality -/

mutual

protected def decEq : (a b : ConstValue) → Decidable (a = b)
  | scalar f s p, scalar g t q =>
    if h : f = g ∧ s = t ∧ p = q then .isTrue (by simp [h]) else .isFalse (by simpa using h)
  | list xs p, list ys q =>
    match ConstValue.decEqList xs ys with
    | .isTrue h => if hs : p = q then .isTrue (by rw [h, hs]) else .isFalse (by simp [hs])
    | .isFalse h => .isFalse (by simp [h])
  | map xs p, map ys q =>
    match ConstValue.decEqEntries xs ys with
    | .isTrue h => if hs : p = q then .isTrue (by rw [h, hs]) else .isFalse (by simp [hs])
    | .isFalse h => .isFalse (by simp [h])
  | scalar .., list .. | scalar .., map .. | list .., scalar .. | list .., map ..
  | map .., scalar .. | map .., list .. => .isFalse (by simp)

protected def decEqList : (xs ys : List ConstValue) → Decidable (xs = ys)
  | [], [] => .isTrue rfl
  | [], _ :: _ | _ :: _, [] => .isFalse (by simp)
  | x :: xs, y :: ys =>
    match ConstValue.decEq x y, ConstValue.decEqList xs ys with
    | .isTrue h, .isTrue hs => .isTrue (by rw [h, hs])
    | .isFalse h, _ | _, .isFalse h => .isFalse (by simp [h])

protected def decEqEntries : (xs ys : List (ConstValue × ConstValue)) → Decidable (xs = ys)
  | [], [] => .isTrue rfl
  | [], _ :: _ | _ :: _, [] => .isFalse (by simp)
  | (k, v) :: xs, (l, w) :: ys =>
    match ConstValue.decEq k l, ConstValue.decEq v w, ConstValue.decEqEntries xs ys with
    | .isTrue hk, .isTrue hv, .isTrue hs => .isTrue (by rw [hk, hv, hs])
    | .isFalse h, _, _ | _, .isFalse h, _ | _, _, .isFalse h => .isFalse (by simp [h])

end

instance : DecidableEq ConstValue := ConstValue.decEq

end ConstValue

end ThriftSyntax
