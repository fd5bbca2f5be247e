import Sirius.Expression.Cudf

/-!
# The expression executor

`gpu_expression_executor`, node kind by node kind. A node is executed in one of two modes: in AST
mode it becomes a node of a cuDF AST, in MATERIALIZE mode a column, a view or a scalar. Under the
strategies with an AST, a node executed in MATERIALIZE mode whose tree lowers to at least
`min_ast_size` operators is built as an AST and run at once. Scalars and columns an AST refers to
live in slots of the executor until the AST has been run.
-/

namespace Sirius.Expression

open Sirius.Lib

/-! ## Results -/

inductive Strategy where
  | materialize
  | astInterpret
  | astJit
  deriving DecidableEq, Repr

inductive Mode where
  | ast
  | materialize
  deriving DecidableEq, Repr

/-- `ast_result`: an AST node and the slots it needs. -/
structure AstResult where
  expr : AstExpr
  tempScalarIndices : List Nat
  tempColumnIndices : List Nat

inductive Result (V : Type) (n : Nat) where
  | ast (result : AstResult)
  | columnView (view : Column V n)
  | scalar (scalar : Scalar V)
  | column (column : Column V n)

namespace Result

variable {V : Type} {n : Nat}

def isScalar : Result V n → Bool
  | scalar _ => true
  | _ => false

def getAst : Result V n → Except String AstResult
  | ast result => .ok result
  | _ => .error "[execute_result] Attempted to get expr from materialized result"

def getColumnView : Result V n → Except String (Column V n)
  | columnView c | column c => .ok c
  | _ => .error "[execute_result] Attempted to get column view from non-column execute_result"

def operand : Result V n → Except String (Column V n)
  | scalar s => .ok (.ofScalar s)
  | result => result.getColumnView

/-- The operands of `cudf::binary_operation`, which has no overload for two scalars. -/
def operands (left right : Result V n) : Except String (Column V n × Column V n) := do
  if left.isScalar then return (← left.operand, ← right.getColumnView)
  else return (← left.getColumnView, ← right.operand)

def releaseColumn (error : String) : Result V n → Except String (Column V n)
  | column c => .ok c
  | _ => .error error

def columnOfScalar : Result V n → Result V n
  | scalar s => column (.ofScalar s)
  | result => result

/-- Is the THEN of `error()` reached in some row? -/
def anyTrue [Element V] : Result V n → Except String Bool
  | scalar s => .ok (s.value.any truth)
  | result => do return (← result.getColumnView).anyTrue

end Result

/-! ## State -/

structure Temps (V : Type) (n : Nat) where
  scalars : List (Option (Scalar V))
  columns : List (Option (Column V n))

abbrev Exec (V : Type) (n : Nat) := StateT (Temps V n) (Except String)

/-- The fields of `gpu_expression_executor` that stay fixed while it runs. -/
structure Executor (V : Type) (w n : Nat) where
  dev : Cudf V
  strategy : Strategy
  minAstSize : Nat
  input : Table V w n

/-- `std::get` on a payload that holds another alternative. -/
def badVariantAccess : String := "std::bad_variant_access"

/-- The scalar of a constant. Its payload has to be the alternative of the declared type. -/
def makeScalar {V : Type} [Element V] (payload : Option V) (returnType : LogicalType) :
    Except String (Scalar V) := do
  let type ← getCudfType returnType
  if type.id = .list ∨ type.id = .struct then
    throw "[gpu_expression_executor] Unsupported scalar type"
  match payload with
  | none => return ⟨type, none⟩
  | some value => if typeId value = type.id then return ⟨type, some value⟩ else throw badVariantAccess

/-- `get_const_payload<T>`: a constant that holds a value of the given type. -/
def getConstPayload {V : Type} {w : Nat} [Element V] (type : CudfTypeId) (node : Node V w) :
    Except String V :=
  match node.constant? with
  | some (some value) => if typeId value = type then .ok value else .error badVariantAccess
  | _ => .error badVariantAccess

namespace Executor

variable {V : Type} {w n : Nat} [Element V] (x : Executor V w n)

def useAst (mode : Mode) (opCount : Nat) : Bool :=
  x.strategy != .materialize && (mode == .ast || x.minAstSize ≤ opCount)

/-- The table an AST is run on: the input, then the temporaries. An empty slot is filled with the
first input column to keep the positions. -/
def combined (temps : Temps V n) : List (Column V n) :=
  List.ofFn x.input ++ temps.columns.map fun slot => slot.getD (x.input ⟨0, Nat.succ_pos w⟩)

/-- `execute_ast`. The interpreter and the JIT run the same tree. -/
def executeAst (root : AstExpr) : Exec V n (Column V n) := do
  let temps ← get
  StateT.lift (computeColumn x.dev (x.combined temps) temps.scalars root)

def releaseTemporaries (scalars columns : List Nat) : Exec V n PUnit :=
  modify fun temps => ⟨release temps.scalars scalars, release temps.columns columns⟩

/-- **The end of a node built as an AST.** In AST mode the node is handed to the parent; in
MATERIALIZE mode it is run and its slots are released. -/
def finishAst (mode : Mode) (result : AstResult) : Exec V n (Result V n) :=
  match mode with
  | .ast => return .ast result
  | .materialize => do
    let column ← x.executeAst result.expr
    releaseTemporaries result.tempScalarIndices result.tempColumnIndices
    return .column column

def materializeAsAstColumn (w : Nat) (column : Column V n) : Exec V n (Result V n) := do
  let temps ← get
  let index := temps.columns.length
  set { temps with columns := temps.columns ++ [some column] }
  return .ast ⟨.columnReference (w + 1 + index), [], [index]⟩

/-- The end of a node without an AST form: in AST mode its column becomes a temporary. -/
def finishMaterialized (w : Nat) (mode : Mode) (error : String) (result : Result V n) :
    Exec V n (Result V n) :=
  match mode with
  | .materialize => return result
  | .ast => do
    let column ← StateT.lift (result.releaseColumn error)
    materializeAsAstColumn w column

def makeResultFromScalar (scalar : Scalar V) (mode : Mode) : Exec V n (Result V n) :=
  match mode with
  | .materialize => return .scalar scalar
  | .ast => do
    let temps ← get
    let index := temps.scalars.length
    set { temps with scalars := temps.scalars ++ [some scalar] }
    return .ast ⟨.literal index, [index], []⟩

def binaryAst (op : BinaryOperator) (out : DataType) (left right : AstResult) : AstResult :=
  ⟨.binary op out left.expr right.expr, left.tempScalarIndices ++ right.tempScalarIndices,
    left.tempColumnIndices ++ right.tempColumnIndices⟩

def unaryAst (op : AstUnary) (child : AstResult) : AstResult :=
  { child with expr := .unary op child.expr }

/-- The AST of a comparison: `DISTINCT FROM` is the negation of `NULL_EQUAL`. -/
def comparisonAst (op : ComparisonType) (left right : AstResult) : AstResult :=
  match op with
  | .distinctFrom => unaryAst .not (binaryAst (.comparison .notDistinctFrom) .bool left right)
  | op => binaryAst (.comparison op) .bool left right

def conjunctionOp : ConjunctionKind → BinaryOperator
  | .opAnd => .logicalAnd
  | .opOr => .logicalOr

def lowerOp (inclusive : Bool) : BinaryOperator := .comparison (if inclusive then .ge else .gt)

def upperOp (inclusive : Bool) : BinaryOperator := .comparison (if inclusive then .le else .lt)

/-- The AST of BETWEEN: the input is used twice, its slots are listed once. -/
def betweenAst (lowerInclusive upperInclusive : Bool) (input lower upper : AstResult) : AstResult :=
  ⟨.binary .logicalAnd .bool (.binary (lowerOp lowerInclusive) .bool input.expr lower.expr)
      (.binary (upperOp upperInclusive) .bool input.expr upper.expr),
    input.tempScalarIndices ++ lower.tempScalarIndices ++ upper.tempScalarIndices,
    input.tempColumnIndices ++ lower.tempColumnIndices ++ upper.tempColumnIndices⟩

/-- The AST of one more value of an IN list: the probe is used again, its slots are not. -/
def inListStep (test output comparator : AstResult) : AstResult :=
  ⟨.binary .logicalOr .bool output.expr
      (.binary (.comparison .equal) .bool test.expr comparator.expr),
    output.tempScalarIndices ++ comparator.tempScalarIndices,
    output.tempColumnIndices ++ comparator.tempColumnIndices⟩

def unaryOpAst (op : UnaryKind) (child : AstResult) : AstResult :=
  match op with
  | .opIsNull => unaryAst .isNull child
  | .opIsNotNull => unaryAst .not (unaryAst .isNull child)
  | _ => unaryAst .not child

def unaryOpColumn (op : UnaryKind) (child : Column V n) : Column V n :=
  match op with
  | .opIsNull => child.isNull
  | .opIsNotNull => child.isNull.logicalNot
  | _ => child.logicalNot

def castOpToAst : TypeId → Except String AstUnary
  | .ubigint => .ok (.castTo (.make .uint64))
  | .bigint => .ok (.castTo (.make .int64))
  | .double => .ok (.castTo (.make .float64))
  | _ => .error "[cast_op_to_ast] unsupported CAST target type"

def negateIf (negated : Bool) (c : Column V n) : Column V n :=
  if negated then c.logicalNot else c

/-! ## Functions -/

/-- The position of the column argument of a function that has no AST form. -/
def inputArgument : FunctionId → Nat
  | .dateTrunc => 1
  | _ => 0

/-- The positions of the constant arguments of such a function, with the type of each. -/
def constantArguments : FunctionId → List (Nat × CudfTypeId)
  | .substring => [(1, .int64), (2, .int64)]
  | .like | .notLike | .contains | .startsWith | .endsWith => [(1, .string)]
  | .dateTrunc => [(0, .string)]
  | .regexpReplace => [(1, .string), (2, .string)]
  | _ => []

/-- The frequencies `date_trunc` knows. -/
def frequencies : List String :=
  ["day", "hour", "minute", "second", "millisecond", "microsecond"]

def constants (f : FunctionId) (arguments : List (Node V w)) : Except String (List V) := do
  let values ← (constantArguments f).mapM fun (i, type) =>
    match arguments[i]? with
    | some argument => getConstPayload type argument
    | none => .error "vector index out of range"
  if f = .dateTrunc ∧ ¬ values.all (fun v => frequencies.contains (Element.text v)) then
    throw "[gpu_expression_executor:function] unrecognized/unsupported date_trunc frequency"
  return values

def functionType (f : FunctionId) (input : DataType) : DataType :=
  match f with
  | .substring | .regexpReplace => .make .string
  | .like | .notLike | .contains | .startsWith | .endsWith => .bool
  | .strlen | .length => .make .int32
  | .dateTrunc => input
  | _ => .make .int16

/-- The column of such a function. `NOT LIKE` negates the column of `LIKE`. -/
def functionColumn (f : FunctionId) (constants : List V) (input : Column V n) : Column V n :=
  match f with
  | .notLike => (input.function x.dev .like constants .bool).logicalNot
  | f => input.function x.dev f constants (functionType f input.type)

/-! ## Execution -/

mutual

/-- **`execute(node, mode)`.** -/
def execute : Node V w → Mode → Exec V n (Result V n)
  | .reference i _, .ast => return .ast ⟨.columnReference i, [], []⟩
  | .reference i _, .materialize => return .columnView (x.input i)
  | .constant payload type, mode => do
    let scalar ← StateT.lift (makeScalar payload type)
    makeResultFromScalar scalar mode
  | .comparison op l r, mode => do
    let opCount ← StateT.lift (Node.comparison op l r).cudfAstOpCount
    if x.useAst mode opCount then do
      let left ← (← execute l .ast).getAst
      let right ← (← execute r .ast).getAst
      x.finishAst mode (comparisonAst op left right)
    else do
      let left ← execute l .materialize
      let right ← execute r .materialize
      let (lhs, rhs) ← left.operands right
      finishMaterialized w mode "" (.column (.binary x.dev (.comparison op) .bool lhs rhs))
  | .conjunction op children, mode => do
    let opCount ← StateT.lift (Node.conjunction op children).cudfAstOpCount
    match children with
    | [] => throw "[gpu_expression_executor:conjunction] conjunction has no children — malformed AST."
    | child :: children =>
      if x.useAst mode opCount then do
        let output ← (← execute child .ast).getAst
        let output ← conjunctionAst op children output
        x.finishAst mode output
      else do
        let output ← execute child .materialize
        conjunctionColumns op children output
  | .between input lower upper lowerInclusive upperInclusive, mode => do
    let opCount ← StateT.lift
      (Node.between input lower upper lowerInclusive upperInclusive).cudfAstOpCount
    if x.useAst mode opCount then do
      let input ← (← execute input .ast).getAst
      let lower ← (← execute lower .ast).getAst
      let upper ← (← execute upper .ast).getAst
      x.finishAst mode (betweenAst lowerInclusive upperInclusive input lower upper)
    else do
      let input ← execute input .materialize
      let lower ← execute lower .materialize
      let upper ← execute upper .materialize
      let input ← input.getColumnView
      let lower ← lower.operand
      let upper ← upper.operand
      return .column (.binary x.dev .logicalAnd .bool
        (.binary x.dev (lowerOp lowerInclusive) .bool input lower)
        (.binary x.dev (upperOp upperInclusive) .bool input upper))
  | .caseExpr cases otherwise _, mode => do
    let current ← execute otherwise .materialize
    let current ← caseLoop cases current
    finishMaterialized w mode
      "[gpu_expression_executor:case]: Expected an owned column after executing CASE expression."
      current
  | .cast child target, mode => do
    let opCount ← StateT.lift (Node.cast child target).cudfAstOpCount
    if Node.castSupported target && x.useAst mode opCount then do
      let child ← (← execute child .ast).getAst
      let op ← StateT.lift (castOpToAst target.id)
      x.finishAst mode (unaryAst op child)
    else do
      let type ← StateT.lift (getCudfType target)
      let child ← execute child .materialize
      let child ← child.getColumnView
      finishMaterialized w mode "" (.column (child.cast x.dev type))
  | .unaryOp op child, mode => do
    let opCount ← StateT.lift (Node.unaryOp op child).cudfAstOpCount
    if x.useAst mode opCount then do
      let child ← (← execute child .ast).getAst
      x.finishAst mode (unaryOpAst op child)
    else do
      let child ← execute child .materialize
      let child ← child.getColumnView
      finishMaterialized w mode "" (.column (unaryOpColumn op child))
  | .coalesce first rest _, mode => do
    let current ← execute first .materialize
    let current ← coalesceLoop rest current.columnOfScalar
    finishMaterialized w mode
      "[gpu_expression_executor:operator]: Expected an owned column after executing COALESCE expression."
      current
  | .inList probe values negated, mode => do
    let opCount ← StateT.lift (Node.inList probe values negated).cudfAstOpCount
    match values with
    | [] => throw "[gpu_expression_executor:in_list] in_list has no values — malformed AST."
    | value :: values =>
      if x.useAst mode opCount then do
        let test ← (← execute probe .ast).getAst
        let comparator ← (← execute value .ast).getAst
        let output ← inListAst test values (binaryAst (.comparison .equal) .bool test comparator)
        x.finishAst mode (if negated then unaryAst .not output else output)
      else do
        let test ← execute probe .materialize
        if (value :: values).all (·.constant?.isSome) then do
          let test ← test.getColumnView
          if test.type.id = .list ∨ test.type.id = .struct then
            throw "[gpu_expression_executor] execute IN called with unsupported scalar haystack type"
          else do
            let haystack ← StateT.lift ((value :: values).mapM (getConstPayload test.type.id))
            finishMaterialized w mode "" (.column (negateIf negated (test.contains x.dev haystack)))
        else do
          let comparator ← execute value .materialize
          let test ← test.getColumnView
          let comparator ← comparator.getColumnView
          let output ← inListColumns test values
            (.binary x.dev (.comparison .equal) .bool test comparator)
          finishMaterialized w mode "" (.column (negateIf negated output))
  | .functionCall f arguments type, mode => do
    let opCount ← StateT.lift (Node.functionCall f arguments type).cudfAstOpCount
    if Node.functionSupported f type && x.useAst mode opCount then do
      let left ← (← executeArgument arguments 0 .ast).getAst
      let right ← (← executeArgument arguments 1 .ast).getAst
      x.finishAst mode (binaryAst (.arithmetic f) ((getCudfType type).toOption.getD .bool) left right)
    else do
      let out ← StateT.lift (getCudfType type)
      let column ← (
        if f ∈ supportedAstFunctions then do
          let left ← executeArgument arguments 0 .materialize
          let right ← executeArgument arguments 1 .materialize
          let (lhs, rhs) ← left.operands right
          pure (.binary x.dev (.arithmetic f) out lhs rhs)
        else if f = .row ∨ f = .structPack then do
          let columns ← structChildren arguments
          if columns.isEmpty then throw "vector index out of range"
          else pure (.makeStructs x.dev columns)
        else if f = .error then
          throw "[gpu_expression_executor:function] error() is not dispatched on GPU; expected to fall back to CPU execution"
        else do
          let input ← executeArgument arguments (inputArgument f) .materialize
          let values ← StateT.lift (constants f arguments)
          let input ← input.getColumnView
          pure (x.functionColumn f values input))
      finishMaterialized w mode "" (.column column)

def conjunctionAst (op : ConjunctionKind) : List (Node V w) → AstResult → Exec V n AstResult
  | [], output => return output
  | child :: children, output => do
    let child ← (← execute child .ast).getAst
    conjunctionAst op children (binaryAst (conjunctionOp op) .bool output child)

/-- The children of a conjunction after the first, folded into its column. -/
def conjunctionColumns (op : ConjunctionKind) :
    List (Node V w) → Result V n → Exec V n (Result V n)
  | [], output => return output
  | child :: children, output => do
    let child ← execute child .materialize
    let lhs ← output.getColumnView
    let rhs ← child.getColumnView
    conjunctionColumns op children (.column (.binary x.dev (conjunctionOp op) .bool lhs rhs))

def inListAst (test : AstResult) : List (Node V w) → AstResult → Exec V n AstResult
  | [], output => return output
  | value :: values, output => do
    let comparator ← (← execute value .ast).getAst
    inListAst test values (inListStep test output comparator)

/-- The values of an IN list after the first, folded into its column. -/
def inListColumns (test : Column V n) : List (Node V w) → Column V n → Exec V n (Column V n)
  | [], output => return output
  | value :: values, output => do
    let comparator ← execute value .materialize
    let comparator ← comparator.getColumnView
    inListColumns test values (.binary x.dev .logicalOr .bool output
      (.binary x.dev (.comparison .equal) .bool test comparator))

/-- The children of COALESCE after the first; the loop stops once no null is left. -/
def coalesceLoop : List (Node V w) → Result V n → Exec V n (Result V n)
  | [], current => return current
  | child :: children, current => do
    let view ← current.getColumnView
    if view.hasNulls then do
      let replacement ← execute child .materialize
      let replacement ← replacement.operand
      coalesceLoop children (.column (view.replaceNulls replacement))
    else
      return current

def caseLoop : List (Node V w × Node V w) → Result V n → Exec V n (Result V n)
  | [], current => return current
  | (condition, branch) :: cases, current => do
    let current ← caseLoop cases current
    let mask ← execute condition .materialize
    if branch.isError then do
      if ← mask.anyTrue then
        throw "[gpu_expression_executor:case]: More than one row returned by a subquery used as an expression."
      else return current
    else do
      let result ← execute branch .materialize
      let rhs ← current.operand
      let lhs ← result.operand
      let mask ← mask.getColumnView
      return .column (.copyIfElse lhs rhs mask)

def executeArgument : List (Node V w) → Nat → Mode → Exec V n (Result V n)
  | [], _, _ => throw "vector index out of range"
  | argument :: _, 0, mode => execute argument mode
  | _ :: arguments, i + 1, mode => executeArgument arguments i mode

def structChildren : List (Node V w) → Exec V n (List (Column V n))
  | [] => return []
  | argument :: arguments => do
    let result ← execute argument .materialize
    let column ← result.operand
    return column :: (← structChildren arguments)

end

section Equations

-- The equations of the block are long. They are generated here, before the proofs that rewrite by them.
attribute [local simp] execute

theorem execute_constant (payload : Option V) (type : LogicalType) (mode : Mode) :
    x.execute (.constant payload type) mode =
      StateT.lift (makeScalar payload type) >>= (makeResultFromScalar · mode) := by
  simp

end Equations

/-- `post_process`. A column that has not the type the tree declares is cast. -/
def postProcess (node : Node V w) (result : Result V n) : Except String (Column V n) :=
  match node with
  | .reference .. => result.getColumnView
  | _ => do
    let returnType ← getCudfType node.returnType
    let column ← result.operand
    if column.type.id = returnType.id then return column
    else if column.type.isFixedWidth && returnType.isFixedWidth then
      return column.cast x.dev returnType
    else throw "[gpu_expression_executor] Unsupported type conversion"

/-- The loop of `execute(table)` over the expressions. -/
def executeAll : List (Node V w) → Exec V n (List (Column V n))
  | [] => return []
  | node :: nodes => do
    let result ← x.execute node .materialize
    let column ← StateT.lift (x.postProcess node result)
    return column :: (← executeAll nodes)

/-- **`execute(table)`**: one output column for each expression. -/
def executeTable (nodes : List (Node V w)) : Except String (List (Column V n)) :=
  (x.executeAll nodes ⟨[], []⟩).map (·.1)

/-- **`select(table)`**: the rows, in order, at which the one expression is valid and true;
`cudf::apply_boolean_mask` refuses a mask that is not BOOL8. -/
def select (node : Node V w) : Except String (List (Fin (w + 1) → Option V)) := do
  match ← x.executeTable [node] with
  | [mask] =>
    if mask.type.id = .bool8 then return ((List.finRange n).filter mask.isTrue).map x.input.row
    else throw "apply_boolean_mask: mask must be BOOL8"
  | _ => throw "vector index out of range"

end Executor

end Sirius.Expression
