import Mathlib.Data.Sum.Order
import Sirius.Expression.Node
import Sirius.Lib.SlotProgram

/-!
# Columns and the cuDF operations on them

The part of cuDF the executor calls, with its documented null rules. A column of `n` rows holds an
optional value per row, with `none` for NULL. Every operation here works row by row, and so does a
cuDF AST: the tree is evaluated at each row of the table it is run on, with the meaning its
operators have as column operations.

What a cuDF kernel does with two values that are not NULL (arithmetic, casts, string and date
functions) is a parameter, `Cudf`.
-/

namespace Sirius.Expression

open Sirius.Lib

/-! ## Values, scalars and columns -/

/-- **Values of columns.** They are ordered, hold the booleans, and each has a cuDF type, which
for the payload of a constant is the alternative its variant holds. -/
class Element (V : Type) extends LinearOrder V where
  ofBool : Bool → V
  truth : V → Bool
  truth_ofBool : ∀ b, truth (ofBool b) = b
  typeId : V → CudfTypeId
  text : V → String

export Element (ofBool truth typeId)

@[simp] theorem truth_ofBool {V : Type} [Element V] (b : Bool) : truth (ofBool b : V) = b :=
  Element.truth_ofBool b

structure Cudf (V : Type) where
  arithmetic : FunctionId → DataType → V → V → Option V
  cast : DataType → V → Option V
  function : FunctionId → List V → V → Option V
  makeStruct : List (Option V) → V
  /-- `cudf::contains` for one value. A NaN, of which cuDF can be told that it equals itself, is not
  among the values. -/
  contains : List V → V → Bool
  contains_iff : ∀ haystack a, contains haystack a = true ↔ a ∈ haystack

structure Scalar (V : Type) where
  type : DataType
  value : Option V

@[ext] structure Column (V : Type) (n : Nat) where
  type : DataType
  rows : Fin n → Option V

abbrev Table (V : Type) (w n : Nat) := Fin (w + 1) → Column V n

variable {V : Type} {w n : Nat}

def Table.row (input : Table V w n) (i : Fin n) : Fin (w + 1) → Option V :=
  fun c => (input c).rows i

namespace Column

/-- `cudf::make_column_from_scalar`; also how a scalar operand is read. -/
def ofScalar (s : Scalar V) : Column V n := ⟨s.type, fun _ => s.value⟩

def hasNulls (c : Column V n) : Bool := decide (∃ i, (c.rows i).isNone)

def isNull [Element V] (c : Column V n) : Column V n :=
  ⟨.bool, fun i => some (ofBool (c.rows i).isNone)⟩

/-- `cudf::unary_operation` with `NOT`, which keeps nulls. -/
def logicalNot [Element V] (c : Column V n) : Column V n :=
  ⟨.bool, fun i => (c.rows i).map fun a => ofBool (!truth a)⟩

def cast (dev : Cudf V) (type : DataType) (c : Column V n) : Column V n :=
  ⟨type, fun i => (c.rows i).bind (dev.cast type)⟩

def replaceNulls (c replacement : Column V n) : Column V n :=
  ⟨c.type, fun i => (c.rows i).or (replacement.rows i)⟩

def isTrue [Element V] (mask : Column V n) (i : Fin n) : Bool := (mask.rows i).any truth

/-- `cudf::copy_if_else`: a null of the mask selects the right side. -/
def copyIfElse [Element V] (lhs rhs mask : Column V n) : Column V n :=
  ⟨rhs.type, fun i => if mask.isTrue i then lhs.rows i else rhs.rows i⟩

/-- `cudf::reduce` with `any`, nulls left out. -/
def anyTrue [Element V] (mask : Column V n) : Bool := decide (∃ i, mask.isTrue i)

/-- `cudf::contains`: is each row of the column among the values? A null stays a null. -/
def contains [Element V] (dev : Cudf V) (haystack : List V) (needles : Column V n) : Column V n :=
  ⟨.bool, fun i => (needles.rows i).map fun a => ofBool (dev.contains haystack a)⟩

def function (dev : Cudf V) (f : FunctionId) (constants : List V) (type : DataType)
    (c : Column V n) : Column V n :=
  ⟨type, fun i => (c.rows i).bind (dev.function f constants)⟩

def makeStructs (dev : Cudf V) (columns : List (Column V n)) : Column V n :=
  ⟨.make .struct, fun i => some (dev.makeStruct (columns.map fun c => c.rows i))⟩

end Column

/-! ## Values of BOOLEAN and BIGINT columns -/

abbrev Datum := Bool ⊕ₗ Int

instance : Element Datum where
  ofBool b := toLex (.inl b)
  truth
    | .inl b => b
    | .inr i => i != 0
  truth_ofBool _ := rfl
  typeId
    | .inl _ => .bool8
    | .inr _ => .int64
  text _ := ""

def Datum.cudf : Cudf Datum where
  arithmetic _ _ _ _ := none
  cast _ _ := none
  function _ _ _ := none
  makeStruct _ := ofBool false
  contains haystack a := haystack.any fun b => decide (b = a)
  contains_iff _ _ := by simp

/-! ## Binary operations -/

/-- `cudf::binary_operator`, as far as the executor picks one. -/
inductive BinaryOperator where
  | comparison (op : ComparisonType)
  | logicalAnd
  | logicalOr
  | arithmetic (f : FunctionId)
  deriving DecidableEq, Repr

/-- **The null rules.** Comparisons, connectives and arithmetic propagate nulls; `NULL_EQUALS` and
`NULL_NOT_EQUALS` (the last two comparisons) compare them. -/
def BinaryOperator.apply [Element V] (dev : Cudf V) (out : DataType) :
    BinaryOperator → Option V → Option V → Option V
  | comparison op, a, b => (op.sql a b).map ofBool
  | logicalAnd, a, b => Option.map₂ (fun x y => ofBool (truth x && truth y)) a b
  | logicalOr, a, b => Option.map₂ (fun x y => ofBool (truth x || truth y)) a b
  | arithmetic f, a, b => a.bind fun x => b.bind fun y => dev.arithmetic f out x y

/-- `cudf::binary_operation`. A scalar operand stands for the column that repeats it. -/
def Column.binary [Element V] (dev : Cudf V) (op : BinaryOperator) (out : DataType)
    (lhs rhs : Column V n) : Column V n :=
  ⟨out, fun i => op.apply dev out (lhs.rows i) (rhs.rows i)⟩

/-! ## cuDF ASTs -/

inductive AstUnary where
  | not
  | isNull
  | castTo (type : DataType)
  deriving DecidableEq, Repr

/-- `cudf::ast::expression`. A literal refers to a scalar and a column reference to a column of
the table. An operation carries the type of the column operation it stands for; its elements are
those of that operation. `NULL_EQUAL` is the comparison `notDistinctFrom`. -/
inductive AstExpr where
  | literal (scalar : Nat)
  | columnReference (column : Nat)
  | unary (op : AstUnary) (operand : AstExpr)
  | binary (op : BinaryOperator) (out : DataType) (lhs rhs : AstExpr)

def AstUnary.apply [Element V] (dev : Cudf V) : AstUnary → Column V n → Column V n
  | not, c => c.logicalNot
  | isNull, c => c.isNull
  | castTo type, c => c.cast dev type

/-- **`cudf::compute_column`**, with the scalars its literals refer to. A literal whose scalar is
gone and a column outside the table are errors. -/
def computeColumn [Element V] (dev : Cudf V) (table : List (Column V n))
    (scalars : List (Option (Scalar V))) : AstExpr → Except String (Column V n)
  | .literal s =>
    match content scalars s with
    | some scalar => .ok (.ofScalar scalar)
    | none => .error "dangling literal"
  | .columnReference c =>
    match table[c]? with
    | some column => .ok column
    | none => .error "column index out of range"
  | .unary op operand => do
    return op.apply dev (← computeColumn dev table scalars operand)
  | .binary op out lhs rhs => do
    return .binary dev op out (← computeColumn dev table scalars lhs)
      (← computeColumn dev table scalars rhs)

end Sirius.Expression
