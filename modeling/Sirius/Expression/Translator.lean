import Sirius.Expression.Executor

/-!
# The expression translator

`gpu_expression_translator` lowers a tree to a cuDF AST that is run elsewhere: by the parquet reader,
which knows its columns by name, or inside a join, where a column is one of the left or of the right
table. It knows fewer node kinds than the executor, and it gives up on a tree it cannot lower.
-/

namespace Sirius.Expression

open Sirius.Lib

/-! ## Attempts -/

/-- A function that throws, gives up (`std::nullopt`) or returns. -/
abbrev Attempt (α : Type) := Except String (Option α)

namespace Attempt

variable {α β : Type}

def andThen (a : Attempt α) (f : α → Attempt β) : Attempt β :=
  match a with
  | .error e => .error e
  | .ok none => .ok none
  | .ok (some x) => f x

/-- Two attempts, the second also if the first was given up. -/
def both (a : Attempt α) (b : Attempt β) : Attempt (α × β) :=
  a.bind fun x => b.bind fun y => .ok (x.bind fun x => y.map fun y => (x, y))

def each (f : α → Attempt β) : List α → Attempt (List β)
  | [] => .ok (some [])
  | x :: xs => andThen (f x) fun y => andThen (each f xs) fun ys => .ok (some (y :: ys))

theorem andThen_eq_some_iff {a : Attempt α} {f : α → Attempt β} {y : β} :
    a.andThen f = .ok (some y) ↔ ∃ x, a = .ok (some x) ∧ f x = .ok (some y) := by
  unfold andThen
  split <;> simp

theorem both_eq_some_iff {a : Attempt α} {b : Attempt β} {p : α × β} :
    a.both b = .ok (some p) ↔ a = .ok (some p.1) ∧ b = .ok (some p.2) := by
  constructor
  · intro h
    obtain ⟨x, hx, h⟩ := bind_eq_ok_iff.1 h
    obtain ⟨y, hy, h⟩ := bind_eq_ok_iff.1 h
    cases x <;> cases y <;> cases h
    exact ⟨hx, hy⟩
  · rintro ⟨rfl, rfl⟩
    rfl

theorem each_eq_some_iff {f : α → Attempt β} {xs : List α} {ys : List β} :
    each f xs = .ok (some ys) ↔ List.Forall₂ (fun x y => f x = .ok (some y)) xs ys := by
  induction xs generalizing ys with
  | nil => simp [each, eq_comm]
  | cons x xs ih =>
    rw [each, andThen_eq_some_iff, List.forall₂_cons_left_iff]
    simp only [andThen_eq_some_iff, ih]
    constructor
    · rintro ⟨y, hy, ys, hys, ⟨⟩⟩
      exact ⟨y, ys, hy, hys, rfl⟩
    · rintro ⟨y, ys, hy, hys, rfl⟩
      exact ⟨y, hy, ys, hys, rfl⟩

end Attempt

/-! ## Translated trees -/

inductive TableReference where
  | left
  | right
  deriving DecidableEq, Repr

/-- `translated_expression`: a cuDF AST that owns its literals. As in `AstExpr`, an operation carries
the type of the column operation it stands for. -/
inductive TranslatedExpr (V : Type) where
  | literal (scalar : Scalar V)
  | columnReference (column : Nat) (table : TableReference)
  | columnNameReference (name : String)
  | unary (op : AstUnary) (operand : TranslatedExpr V)
  | binary (op : BinaryOperator) (out : DataType) (lhs rhs : TranslatedExpr V)

/-- The pair of rows an AST is evaluated on, as far as it can see them. -/
structure RowPair (V : Type) where
  column : TableReference → Nat → Option V
  named : String → Option V

variable {V : Type} [Element V]

def AstUnary.onValue (dev : Cudf V) : AstUnary → Option V → Option V
  | not, a => a.map fun v => ofBool (!truth v)
  | isNull, a => some (ofBool a.isNone)
  | castTo type, a => a.bind (dev.cast type)

/-- **What cuDF computes** for a translated tree. -/
def TranslatedExpr.eval (dev : Cudf V) (rows : RowPair V) : TranslatedExpr V → Option V
  | literal scalar => scalar.value
  | columnReference column table => rows.column table column
  | columnNameReference name => rows.named name
  | unary op operand => op.onValue dev (operand.eval dev rows)
  | binary op out lhs rhs => op.apply dev out (lhs.eval dev rows) (rhs.eval dev rows)

/-! ## Expressions -/

namespace Translator

variable {w : Nat} (columnNameResolver : Option (Nat → String)) (tableSrc : TableReference)

def addConstant (payload : Option V) (returnType : LogicalType) : Attempt (TranslatedExpr V) :=
  match payload with
  | none => .ok none
  | some value => (getCudfType returnType).bind fun type =>
    if type.id = .list ∨ type.id = .struct then .ok none
    else if typeId value = type.id then .ok (some (.literal ⟨type, some value⟩))
    else .error badVariantAccess

/-- The switch over comparisons, the same for comparisons and join conditions. -/
def addComparison (op : ComparisonType) (left right : TranslatedExpr V) :
    Attempt (TranslatedExpr V) :=
  if op = .distinctFrom ∨ op = .notDistinctFrom then .ok none
  else .ok (some (.binary (.comparison op) .bool left right))

def combine (op : BinaryOperator) : List (TranslatedExpr V) → Attempt (TranslatedExpr V)
  | [] => .ok none
  | child :: children => .ok (some (children.foldl (.binary op .bool) child))

def addBetween (input lower upper : TranslatedExpr V) : TranslatedExpr V :=
  .binary .logicalAnd .bool (.binary (.comparison .ge) .bool input lower)
    (.binary (.comparison .le) .bool input upper)

def addCast (child : TranslatedExpr V) (targetType : LogicalType) : Attempt (TranslatedExpr V) :=
  (getCudfType targetType).bind fun type =>
    if type.id = .int64 ∨ type.id = .uint64 ∨ type.id = .float64 then
      .ok (some (.unary (.castTo type) child))
    else .ok none

def addUnaryOp (op : UnaryKind) (child : TranslatedExpr V) : Attempt (TranslatedExpr V) :=
  match op with
  | .opNot => .ok (some (.unary .not child))
  | .opIsNull => .ok (some (.unary .isNull child))
  | .opIsNotNull => .ok (some (.unary .not (.unary .isNull child)))
  | .opTry => .ok none

def addInList (probe : TranslatedExpr V) (negated : Bool) :
    List (TranslatedExpr V) → Attempt (TranslatedExpr V)
  | [] => .ok none
  | value :: values =>
    let test := fun value => .binary (.comparison .equal) .bool probe value
    let chain := values.foldl (fun acc value => .binary .logicalOr .bool acc (test value)) (test value)
    .ok (some (if negated then .unary .not chain else chain))

def nodeLogicalTypeId : Node V w → TypeId
  | .reference _ type | .constant _ type | .cast _ type | .functionCall _ _ type => type.id
  | _ => .invalid

mutual

/-- **`add_expression`**, node kind by node kind. -/
def addExpression : Node V w → Attempt (TranslatedExpr V)
  | .reference column _ =>
    match columnNameResolver with
    | some name => .ok (some (.columnNameReference (name column)))
    | none => .ok (some (.columnReference column tableSrc))
  | .constant payload type => addConstant payload type
  | .comparison op left right =>
    ((addExpression left).both (addExpression right)).andThen fun (left, right) =>
      addComparison op left right
  | .conjunction op children =>
    (addExpressions children).andThen (combine (Executor.conjunctionOp op))
  | .between input lower upper _ _ =>
    ((addExpression input).both ((addExpression lower).both (addExpression upper))).andThen
      fun (input, lower, upper) => .ok (some (addBetween input lower upper))
  | .caseExpr .. => .ok none
  | .cast child target => (addExpression child).andThen fun child => addCast child target
  | .unaryOp op child => (addExpression child).andThen (addUnaryOp op)
  | .coalesce .. => .ok none
  | .inList probe values negated =>
    -- The probe is translated anew for every value, with the same outcome.
    if values.isEmpty then .ok none
    else (addExpression probe).andThen fun probe =>
      (addExpressions values).andThen (addInList probe negated)
  | .functionCall function [left, right] type =>
    if nodeLogicalTypeId left = .decimal ∨ nodeLogicalTypeId right = .decimal ∨
        function ∉ supportedAstFunctions then .ok none
    else ((addExpression left).both (addExpression right)).andThen fun (left, right) =>
      .ok (some (.binary (.arithmetic function) ((getCudfType type).toOption.getD .bool) left right))
  | .functionCall .. => .ok none

def addExpressions : List (Node V w) → Attempt (List (TranslatedExpr V))
  | [] => .ok (some [])
  | node :: nodes =>
    (addExpression node).andThen fun child =>
      (addExpressions nodes).andThen fun children => .ok (some (child :: children))

end

def translateExpression (expr : Node V w) : Attempt (TranslatedExpr V) :=
  addExpression none tableSrc expr

def translateExpressionWithNames (expr : Node V w) (columnNameResolver : Nat → String) :
    Attempt (TranslatedExpr V) :=
  addExpression (some columnNameResolver) .left expr

/-! ## Join conditions -/

/-- `sirius::join_condition`. A side may be missing. -/
structure JoinCondition (V : Type) (wl wr : Nat) where
  left : Option (Node V wl)
  right : Option (Node V wr)
  comparison : ComparisonType

variable {wl wr : Nat}

def addSide (tableSrc : TableReference) : Option (Node V w) → Attempt (TranslatedExpr V)
  | none => .ok none
  | some node => addExpression none tableSrc node

def addJoinCondition (swapSides : Bool) (condition : JoinCondition V wl wr) :
    Attempt (TranslatedExpr V) :=
  let leftTableRef := if swapSides then .right else .left
  let rightTableRef := if swapSides then .left else .right
  (addSide leftTableRef condition.left).andThen fun left =>
    (addSide rightTableRef condition.right).andThen fun right =>
      addComparison condition.comparison left right

def conditionAt (conditions : List (JoinCondition V wl wr)) (i : Nat) :
    Except String (JoinCondition V wl wr) :=
  match conditions[i]? with
  | some condition => .ok condition
  | none => .error s!"Attempted to access index {i} within vector of size {conditions.length}"

def translateJoinConditions (conditions : List (JoinCondition V wl wr)) (startIdx endIdx : Nat)
    (swapSides : Bool) : Attempt (TranslatedExpr V) :=
  if endIdx ≤ startIdx then .ok none
  else
    (Attempt.each (fun i => (conditionAt conditions i).bind (addJoinCondition swapSides))
      (List.range' startIdx (endIdx - startIdx))).andThen (combine .logicalAnd)

end Translator

end Sirius.Expression
