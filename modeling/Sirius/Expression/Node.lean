import Sirius.Expression.Comparison

/-!
# Expression trees

`sirius::ast::node` with the types its nodes carry, and `cudf_ast_op_count`, the number of cuDF AST
operators a tree would lower to. A tree is over a table of `w + 1` columns: the executor relies on
the table having a column `0`, and a reference is bound to a column of the table it is run on.
Aggregates are no part of the trees the executor visits.
-/

namespace Sirius.Expression

/-! ## Types -/

inductive TypeId where
  | invalid | sqlNull | boolean
  | tinyint | smallint | integer | bigint | hugeint
  | utinyint | usmallint | uinteger | ubigint | uhugeint
  | float | double
  | date | timestampSec | timestampMs | timestamp | timestampNs
  | varchar | struct | list | decimal
  deriving DecidableEq, Repr

/-- `sirius::logical_type`. The precision and the scale are those of a DECIMAL. -/
structure LogicalType where
  id : TypeId
  precision : Nat
  scale : Nat
  deriving DecidableEq, Repr

def LogicalType.make (id : TypeId) : LogicalType := ⟨id, 0, 0⟩

/-- `cudf::type_id`, as far as columns of the executor have it. -/
inductive CudfTypeId where
  | int8 | int16 | int32 | int64
  | uint8 | uint16 | uint32 | uint64
  | float32 | float64 | bool8
  | timestampDays | timestampSeconds | timestampMilliseconds | timestampMicroseconds
  | timestampNanoseconds
  | decimal32 | decimal64 | decimal128
  | string | list | struct
  deriving DecidableEq, Repr

structure DataType where
  id : CudfTypeId
  scale : Int
  deriving DecidableEq, Repr

def DataType.make (id : CudfTypeId) : DataType := ⟨id, 0⟩

def DataType.bool : DataType := .make .bool8

def DataType.isFixedWidth (type : DataType) : Bool :=
  type.id != .string && type.id != .list && type.id != .struct

def getCudfType (type : LogicalType) : Except String DataType :=
  match type.id with
  | .tinyint => .ok (.make .int8)
  | .smallint => .ok (.make .int16)
  | .integer => .ok (.make .int32)
  | .bigint | .hugeint => .ok (.make .int64)
  | .utinyint => .ok (.make .uint8)
  | .usmallint => .ok (.make .uint16)
  | .uinteger => .ok (.make .uint32)
  | .ubigint | .uhugeint => .ok (.make .uint64)
  | .float => .ok (.make .float32)
  | .double => .ok (.make .float64)
  | .boolean => .ok .bool
  | .date => .ok (.make .timestampDays)
  | .timestampSec => .ok (.make .timestampSeconds)
  | .timestampMs => .ok (.make .timestampMilliseconds)
  | .timestamp => .ok (.make .timestampMicroseconds)
  | .timestampNs => .ok (.make .timestampNanoseconds)
  | .varchar => .ok (.make .string)
  | .struct => .ok (.make .struct)
  | .list | .sqlNull | .invalid => .error "sirius::get_cudf_type: Type cannot be mapped to cuDF"
  | .decimal =>
    if type.precision ≤ 4 then
      .error ("sirius::get_cudf_type: DECIMAL with precision <= 4 is stored as INT16 in DuckDB " ++
        "and has no direct cuDF equivalent — use DuckDB CPU fallback")
    else if type.precision ≤ 9 then .ok ⟨.decimal32, -type.scale⟩
    else if type.precision ≤ 18 then .ok ⟨.decimal64, -type.scale⟩
    else .ok ⟨.decimal128, -type.scale⟩

/-! ## Nodes -/

/-- `sirius::function_id`; `startsWith` and `endsWith` are its `prefix` and `suffix`. -/
inductive FunctionId where
  | add | sub | mul | div | intDiv | mod
  | substring | like | notLike | contains | startsWith | endsWith | strlen | length
  | regexpReplace
  | year | month | day | hour | minute | second | millisecond | microsecond | dateTrunc
  | row | structPack | error
  deriving DecidableEq, Repr

def supportedAstFunctions : List FunctionId := [.add, .sub, .mul, .div, .intDiv, .mod]

def supportedAstCastTypes : List TypeId := [.ubigint, .bigint, .double]

inductive ConjunctionKind where
  | opAnd
  | opOr
  deriving DecidableEq, Repr

inductive UnaryKind where
  | opNot
  | opIsNull
  | opIsNotNull
  | opTry
  deriving DecidableEq, Repr

/-- **`sirius::ast::node`.** The payload of a constant is `none` for the SQL NULL. `coalesce` has
its first child apart, since the executor reads it without a check. -/
inductive Node (V : Type) (w : Nat) where
  | reference (columnIndex : Fin (w + 1)) (returnType : LogicalType)
  | constant (payload : Option V) (returnType : LogicalType)
  | comparison (op : ComparisonType) (left right : Node V w)
  | conjunction (op : ConjunctionKind) (children : List (Node V w))
  | between (input lower upper : Node V w) (lowerInclusive upperInclusive : Bool)
  | caseExpr (cases : List (Node V w × Node V w)) (otherwise : Node V w) (returnType : LogicalType)
  | cast (child : Node V w) (targetType : LogicalType)
  | unaryOp (op : UnaryKind) (child : Node V w)
  | coalesce (first : Node V w) (rest : List (Node V w)) (returnType : LogicalType)
  | inList (probe : Node V w) (values : List (Node V w)) (negated : Bool)
  | functionCall (function : FunctionId) (arguments : List (Node V w)) (returnType : LogicalType)

namespace Node

variable {V : Type} {w : Nat}

/-- The type `to_duckdb` recovers for a node. -/
def returnType : Node V w → LogicalType
  | reference _ type | constant _ type | caseExpr _ _ type | cast _ type | coalesce _ _ type
  | functionCall _ _ type => type
  | comparison .. | conjunction .. | between .. | unaryOp .. | inList .. => .make .boolean

/-- `holds<sirius::ast::constant>`, and the constant's payload. -/
def constant? : Node V w → Option (Option V)
  | constant payload _ => some payload
  | _ => none

/-- The tree is a call of `error()`, which DuckDB inserts as a THEN. -/
def isError : Node V w → Bool
  | functionCall .error _ _ => true
  | _ => false

def castSupported (target : LogicalType) : Bool := target.id ∈ supportedAstCastTypes

/-- The call lowers to a cuDF AST operator: cuDF ASTs cannot hold an intermediate DECIMAL. -/
def functionSupported (function : FunctionId) (returnType : LogicalType) : Bool :=
  returnType.id != .decimal && function ∈ supportedAstFunctions

mutual

/-- **`cudf_ast_op_count`.** -/
def cudfAstOpCount : Node V w → Except String Nat
  | reference .. | constant .. | caseExpr .. | coalesce .. => .ok 0
  | comparison op left right => do
    -- DISTINCT FROM lowers to two operators
    let self := if op = .distinctFrom then 2 else 1
    return self + (← cudfAstOpCount left) + (← cudfAstOpCount right)
  | conjunction _ children =>
    if children.isEmpty then
      .error "[ast::conjunction::cudf_ast_op_count] no children — malformed AST."
    else do return children.length - 1 + (← sumOpCount children)
  | between input lower upper _ _ => do
    return 3 + (← cudfAstOpCount input) + (← cudfAstOpCount lower) + (← cudfAstOpCount upper)
  | cast child target =>
    if castSupported target then do return 1 + (← cudfAstOpCount child) else .ok 0
  | unaryOp .opNot child | unaryOp .opIsNull child => do return 1 + (← cudfAstOpCount child)
  | unaryOp .opIsNotNull child => do return 2 + (← cudfAstOpCount child)
  | unaryOp .opTry _ =>
    .error "[ast::unary_op::cudf_ast_op_count] TRY operator is not implemented."
  | inList probe values negated =>
    if values.isEmpty then
      .error "[ast::in_list::cudf_ast_op_count] no values — malformed AST."
    else do
      let self := (values.length - 1) + values.length + (if negated then 1 else 0)
      return self + (← cudfAstOpCount probe) + (← sumOpCount values)
  | functionCall function arguments type =>
    if functionSupported function type then do return 1 + (← sumOpCount arguments) else .ok 0

def sumOpCount : List (Node V w) → Except String Nat
  | [] => .ok 0
  | child :: children => do return (← cudfAstOpCount child) + (← sumOpCount children)

end

end Node

end Sirius.Expression
