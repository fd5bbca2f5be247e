import Sirius.Expression.Executor

/-!
# What a tree computes, and which trees the executor runs

`meaning` is the column of a tree, with no strategy in it. `Accepts` says which trees the executor
runs to the end under its strategy: where a node refuses an operand, and which operands those are,
depends on whether the node is built as an AST. `kind` is the form in which a materialised result
is returned. The main result, `execute_outcome`, is that the executor returns exactly on the
accepted trees, and then with the column `meaning`.
-/

namespace Sirius.Expression

open Sirius.Lib

namespace Executor

variable {V : Type} {w n : Nat} [Element V] (x : Executor V w n)

/-! ## Meaning -/

def cudfType (type : LogicalType) : DataType := (getCudfType type).toOption.getD .bool

def noColumn : Column V n := ⟨.bool, fun _ => none⟩

mutual

/-- **The column of a tree.** -/
def meaning : Node V w → Column V n
  | .reference i _ => x.input i
  | .constant payload type => ⟨cudfType type, fun _ => payload⟩
  | .comparison op l r => .binary x.dev (.comparison op) .bool (meaning l) (meaning r)
  | .conjunction op children =>
    match meanings children with
    | [] => noColumn
    | c :: cs => cs.foldl (.binary x.dev (conjunctionOp op) .bool) c
  | .between input lower upper lowerInclusive upperInclusive =>
    .binary x.dev .logicalAnd .bool
      (.binary x.dev (lowerOp lowerInclusive) .bool (meaning input) (meaning lower))
      (.binary x.dev (upperOp upperInclusive) .bool (meaning input) (meaning upper))
  | .caseExpr cases otherwise _ => caseMeaning cases (meaning otherwise)
  | .cast child target => (meaning child).cast x.dev (cudfType target)
  | .unaryOp op child => unaryOpColumn op (meaning child)
  | .coalesce first rest _ => (meanings rest).foldl .replaceNulls (meaning first)
  | .inList probe values negated =>
    negateIf negated <| match meanings values with
      | [] => noColumn
      | c :: cs => cs.foldl (fun output c => .binary x.dev .logicalOr .bool output
          (.binary x.dev (.comparison .equal) .bool (meaning probe) c))
        (.binary x.dev (.comparison .equal) .bool (meaning probe) c)
  | .functionCall f arguments type =>
    if f ∈ supportedAstFunctions then
      .binary x.dev (.arithmetic f) (cudfType type) ((meanings arguments)[0]?.getD noColumn)
        ((meanings arguments)[1]?.getD noColumn)
    else if f = .row ∨ f = .structPack then .makeStructs x.dev (meanings arguments)
    else x.functionColumn f ((constants f arguments).toOption.getD [])
      ((meanings arguments)[inputArgument f]?.getD noColumn)

def meanings : List (Node V w) → List (Column V n)
  | [] => []
  | node :: nodes => meaning node :: meanings nodes

/-- The column of CASE, given that of its ELSE. An `error()` branch writes nothing. -/
def caseMeaning : List (Node V w × Node V w) → Column V n → Column V n
  | [], current => current
  | (condition, branch) :: cases, current =>
    if branch.isError then caseMeaning cases current
    else .copyIfElse (meaning branch) (caseMeaning cases current) (meaning condition)

end

theorem meanings_eq_map (nodes : List (Node V w)) : x.meanings nodes = nodes.map x.meaning := by
  induction nodes with
  | nil => rfl
  | cons node nodes ih => rw [meanings, ih, List.map_cons]

/-! ## Kinds of results -/

inductive Kind where
  | view
  | scalar
  | owned
  deriving DecidableEq, Repr

/-- **The form in which a node comes back from MATERIALIZE mode.** A connective with one child
passes that child on, COALESCE a first child without nulls, and CASE its ELSE if every branch is an
`error()`. -/
def kind : Node V w → Kind
  | .reference .. => .view
  | .constant .. => .scalar
  | .conjunction op [child] =>
    if x.useAst .materialize ((Node.conjunction op [child]).cudfAstOpCount.toOption.getD 0) then
      .owned
    else kind child
  | .coalesce first rest _ =>
    if kind first = .view ∧ (rest = [] ∨ ¬ (x.meaning first).hasNulls) then .view else .owned
  | .caseExpr cases otherwise _ =>
    if cases.all (·.2.isError) then kind otherwise else .owned
  | _ => .owned

def scalarValue : Node V w → Option V
  | .constant payload _ => payload
  | .conjunction _ [child] => scalarValue child
  | .caseExpr _ otherwise _ => scalarValue otherwise
  | _ => none

/-- A condition reaches an `error()`. A scalar is asked for its value, even over no rows. -/
def raises (condition : Node V w) : Bool :=
  if x.kind condition = .scalar then (scalarValue condition).any truth
  else (x.meaning condition).anyTrue

/-! ## Accepted trees -/

mutual

/-- **The trees the executor runs to the end.** A node built as an AST takes every operand its
children can be as ASTs. A node that calls a column operation refuses a scalar where cuDF has no
overload for one, and an IN over constants a NULL in its list. COALESCE and CASE, below an AST,
need a column of their own to hand over. -/
def Accepts : Node V w → Mode → Prop
  | .reference .., _ => True
  | .constant payload type, _ => ∃ s, makeScalar payload type = .ok s
  | .comparison op l r, mode => ∃ k, (Node.comparison op l r).cudfAstOpCount = .ok k ∧
    if x.useAst mode k then Accepts l .ast ∧ Accepts r .ast
    else Accepts l .materialize ∧ Accepts r .materialize ∧
      ¬ (x.kind l = .scalar ∧ x.kind r = .scalar)
  | .conjunction op children, mode => ∃ k, (Node.conjunction op children).cudfAstOpCount = .ok k ∧
    children ≠ [] ∧
    if x.useAst mode k then AcceptsAll children .ast
    else AcceptsAll children .materialize ∧
      (children.length = 1 ∨ ∀ child ∈ children, x.kind child ≠ .scalar)
  | .between input lower upper lowerInclusive upperInclusive, mode =>
    ∃ k, (Node.between input lower upper lowerInclusive upperInclusive).cudfAstOpCount = .ok k ∧
    if x.useAst mode k then Accepts input .ast ∧ Accepts lower .ast ∧ Accepts upper .ast
    else Accepts input .materialize ∧ Accepts lower .materialize ∧ Accepts upper .materialize ∧
      x.kind input ≠ .scalar
  | .caseExpr cases otherwise type, mode =>
    Accepts otherwise .materialize ∧ AcceptsCases cases ∧
      (mode = .ast → x.kind (.caseExpr cases otherwise type) = .owned)
  | .cast child target, mode => ∃ k, (Node.cast child target).cudfAstOpCount = .ok k ∧
    if Node.castSupported target && x.useAst mode k then Accepts child .ast
    else (∃ t, getCudfType target = .ok t) ∧ Accepts child .materialize ∧ x.kind child ≠ .scalar
  | .unaryOp op child, mode => ∃ k, (Node.unaryOp op child).cudfAstOpCount = .ok k ∧
    if x.useAst mode k then Accepts child .ast
    else Accepts child .materialize ∧ x.kind child ≠ .scalar
  | .coalesce first rest type, mode =>
    Accepts first .materialize ∧ AcceptsCoalesce rest (x.meaning first) ∧
      (mode = .ast → x.kind (.coalesce first rest type) = .owned)
  | .inList probe values negated, mode =>
    ∃ k, (Node.inList probe values negated).cudfAstOpCount = .ok k ∧ values ≠ [] ∧
    if x.useAst mode k then Accepts probe .ast ∧ AcceptsAll values .ast
    else Accepts probe .materialize ∧ x.kind probe ≠ .scalar ∧
      if values.all (·.constant?.isSome) then
        ¬ ((x.meaning probe).type.id = .list ∨ (x.meaning probe).type.id = .struct) ∧
          ∀ v ∈ values, ∃ a, getConstPayload (x.meaning probe).type.id v = .ok a
      else AcceptsAll values .materialize ∧ ∀ v ∈ values, x.kind v ≠ .scalar
  | .functionCall f arguments type, mode =>
    ∃ k, (Node.functionCall f arguments type).cudfAstOpCount = .ok k ∧
    if Node.functionSupported f type && x.useAst mode k then
      AcceptsArgument arguments 0 .ast ∧ AcceptsArgument arguments 1 .ast
    else (∃ t, getCudfType type = .ok t) ∧
      if f ∈ supportedAstFunctions then
        AcceptsArgument arguments 0 .materialize ∧ AcceptsArgument arguments 1 .materialize ∧
          ¬ ((arguments[0]?.map x.kind) = some .scalar ∧ (arguments[1]?.map x.kind) = some .scalar)
      else if f = .row ∨ f = .structPack then
        AcceptsAll arguments .materialize ∧ arguments ≠ []
      else f ≠ .error ∧ AcceptsArgument arguments (inputArgument f) .materialize ∧
        (∃ values, constants f arguments = .ok values) ∧
        (arguments[inputArgument f]?.map x.kind) ≠ some .scalar

def AcceptsAll : List (Node V w) → Mode → Prop
  | [], _ => True
  | node :: nodes, mode => Accepts node mode ∧ AcceptsAll nodes mode

/-- The children of COALESCE that are reached: the loop ends with the last null. -/
def AcceptsCoalesce : List (Node V w) → Column V n → Prop
  | [], _ => True
  | node :: nodes, current => current.hasNulls →
    Accepts node .materialize ∧ AcceptsCoalesce nodes (current.replaceNulls (x.meaning node))

/-- The cases of CASE: no `error()` is reached, and a condition that selects between columns is a
column. -/
def AcceptsCases : List (Node V w × Node V w) → Prop
  | [] => True
  | (condition, branch) :: cases =>
    AcceptsCases cases ∧ Accepts condition .materialize ∧
      if branch.isError then x.raises condition = false
      else Accepts branch .materialize ∧ x.kind condition ≠ .scalar

def AcceptsArgument : List (Node V w) → Nat → Mode → Prop
  | [], _, _ => False
  | argument :: _, 0, mode => Accepts argument mode
  | _ :: arguments, i + 1, mode => AcceptsArgument arguments i mode

end

section Equations

-- As for `execute`
attribute [local simp] Accepts

theorem accepts_constant (payload : Option V) (type : LogicalType) (mode : Mode) :
    x.Accepts (.constant payload type) mode ↔ ∃ s, makeScalar payload type = .ok s ∧ True := by
  simp

end Equations

end Executor

end Sirius.Expression
