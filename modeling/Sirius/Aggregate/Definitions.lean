import Sirius.Lib.Fallible

/-!
# Aggregate definitions for cuDF

`convert_duckdb_aggregates_to_cudf` turns the aggregate nodes of a grouped aggregation into a flat
list of cuDF aggregations, with one slot for each node that says where its results stand. AVG takes
two entries of the flat list, COUNT(DISTINCT ..) is a COLLECT_SET.

If the conversion succeeds, every slot reads the entries of its own node (`convert_reads`).
-/

namespace Sirius.Aggregate

open Lib

/-! ## Aggregate nodes -/

inductive AggregateId where
  | sum | sumNoOverflow | count | countStar | min | max | avg | first
  deriving DecidableEq, Repr

def toDuckdbAggregateName : AggregateId → String
  | .sum => "sum"
  | .sumNoOverflow => "sum_no_overflow"
  | .count => "count"
  | .countStar => "count_star"
  | .min => "min"
  | .max => "max"
  | .avg => "avg"
  | .first => "first"

/-- An argument of an aggregate: a column, or a `struct_pack` of columns. -/
inductive Argument where
  | reference (columnIndex : Nat)
  | structPack (columnIndices : List Nat)
  deriving DecidableEq, Repr

def Argument.asReference : Argument → Except Failure Nat
  | .reference c => .ok c
  | .structPack _ => .error (.exception "std::bad_variant_access")

/-- `ast::aggregate`. It has no place for a FILTER clause. -/
structure AggregateNode where
  function : AggregateId
  arguments : List Argument
  distinct : Bool
  deriving DecidableEq, Repr

/-! ## The flat list -/

/-- `cudf::aggregation::Kind`, as far as it is used. -/
inductive Kind where
  | sum | countValid | countAll | min | max | collectSet
  deriving DecidableEq, Repr

def toCudfAggregationKind : AggregateId → Option Kind
  | .sum | .sumNoOverflow => some .sum
  | .count => some .countValid
  | .countStar => some .countAll
  | .min => some .min
  | .max => some .max
  | .avg | .first => none

/-- One entry of the parallel vectors `cudf_aggregates`, `cudf_aggregate_idx` and
`cudf_aggregate_struct_col_indices`. -/
structure CudfAggregate where
  kind : Kind
  idx : Int
  structColIndices : List Nat := []
  deriving DecidableEq, Repr

structure AggregateSlot where
  isAvg : Bool
  isCountDistinct : Bool
  cudfIdx : Nat
  deriving DecidableEq, Repr

structure CudfAggregateDefinitions where
  groupIdx : List Nat
  cudfAggregates : List CudfAggregate := []
  aggregateSlots : List AggregateSlot := []
  deriving DecidableEq, Repr

def CudfAggregateDefinitions.hasAvg (defs : CudfAggregateDefinitions) : Bool :=
  defs.aggregateSlots.any (·.isAvg)

def CudfAggregateDefinitions.hasCountDistinct (defs : CudfAggregateDefinitions) : Bool :=
  defs.aggregateSlots.any (·.isCountDistinct)

def unsupportedAggregate (fid : AggregateId) (detail : String) : Failure :=
  .exception (if detail.isEmpty then
      "Unsupported aggregate function: " ++ toDuckdbAggregateName fid
    else "Unsupported aggregate function: " ++ toDuckdbAggregateName fid ++ " " ++ detail)

namespace AggregateNode

def isAvg (aggr : AggregateNode) : Bool := aggr.function == .avg

def isCountDistinct (aggr : AggregateNode) : Bool := aggr.distinct && aggr.function == .count

def avgAggregates (aggr : AggregateNode) : Except Failure (List CudfAggregate) :=
  match aggr.arguments with
  | [] => .error .undefined
  | child :: _ => do
    let colIdx ← child.asReference
    return [{ kind := .sum, idx := colIdx }, { kind := .countValid, idx := colIdx }]

/-- The entry of a COUNT(DISTINCT ..). The index -1 stands for a struct column. -/
def countDistinctAggregates (aggr : AggregateNode) : Except Failure (List CudfAggregate) :=
  match aggr.arguments with
  | [] => .error .undefined
  | .reference c :: _ => .ok [{ kind := .collectSet, idx := c }]
  | .structPack cs :: _ => .ok [{ kind := .collectSet, idx := -1, structColIndices := cs }]

/-- The entry of any other aggregate. A COUNT(*) has no column and takes 0 for it. -/
def plainAggregates (aggr : AggregateNode) : Except Failure (List CudfAggregate) :=
  match toCudfAggregationKind aggr.function with
  | none => .error (unsupportedAggregate aggr.function "")
  | some kind =>
    match aggr.arguments with
    | [] =>
      if aggr.function = .countStar then .ok [{ kind, idx := 0 }]
      else .error (unsupportedAggregate aggr.function "with no children")
    | [child] => do
      let c ← child.asReference
      return [{ kind, idx := c }]
    | children =>
      .error (unsupportedAggregate aggr.function s!"with {children.length} children")

def cudfAggregates (aggr : AggregateNode) : Except Failure (List CudfAggregate) :=
  if aggr.isAvg then aggr.avgAggregates
  else if aggr.isCountDistinct then aggr.countDistinctAggregates
  else aggr.plainAggregates

end AggregateNode

def requireAggregate : Option AggregateNode → Except Failure AggregateNode
  | none => .error (.exception
      "convert_duckdb_aggregates_to_cudf aggregate: expected non-null aggregate node")
  | some aggr => .ok aggr

def convertAggregate (result : CudfAggregateDefinitions) (aggregate : Option AggregateNode) :
    Except Failure CudfAggregateDefinitions := do
  let aggr ← requireAggregate aggregate
  let entries ← aggr.cudfAggregates
  return { result with
    cudfAggregates := result.cudfAggregates ++ entries
    aggregateSlots := result.aggregateSlots ++
      [⟨aggr.isAvg, aggr.isCountDistinct, result.cudfAggregates.length⟩] }

def convertDuckdbAggregatesToCudf (groups : List Nat) (expressions : List (Option AggregateNode)) :
    Except Failure CudfAggregateDefinitions :=
  expressions.foldlM convertAggregate { groupIdx := groups }

/-! ## The entries of one node -/

namespace AggregateNode

/-- AVG and COUNT(DISTINCT ..) are bound with one argument, as the conversion asserts. -/
def Bound (aggr : AggregateNode) : Prop :=
  aggr.isAvg ∨ aggr.isCountDistinct → aggr.arguments.length = 1

variable {aggr : AggregateNode}

/-- Without exactly one argument the two special forms are out. -/
theorem cudfAggregates_eq_plain (h : aggr.Bound) (hn : aggr.arguments.length ≠ 1) :
    aggr.cudfAggregates = aggr.plainAggregates := by
  have hspecial : ¬(aggr.isAvg ∨ aggr.isCountDistinct) := fun hs => hn (h hs)
  rw [not_or] at hspecial
  rw [cudfAggregates, if_neg hspecial.1, if_neg hspecial.2]

end AggregateNode

/-! ## What the slots read -/

/-- The slot stands for the node: the flat list has the entries of the node at its position. -/
structure AggregateSlot.Reads (slot : AggregateSlot) (flat : List CudfAggregate)
    (aggregate : Option AggregateNode) : Prop where
  node : ∃ aggr es, aggregate = some aggr ∧ aggr.cudfAggregates = .ok es ∧
    slot.isAvg = aggr.isAvg ∧ slot.isCountDistinct = aggr.isCountDistinct ∧
    ∃ before after, flat = before ++ es ++ after ∧ before.length = slot.cudfIdx

theorem AggregateSlot.Reads.append {slot : AggregateSlot} {flat : List CudfAggregate}
    {aggregate : Option AggregateNode} (h : slot.Reads flat aggregate) (more : List CudfAggregate) :
    slot.Reads (flat ++ more) aggregate := by
  obtain ⟨aggr, es, hnode, hes, havg, hcd, before, after, rfl, hlen⟩ := h
  exact ⟨aggr, es, hnode, hes, havg, hcd, before, after ++ more, by simp, hlen⟩

variable {result defs : CudfAggregateDefinitions} {aggregate : Option AggregateNode}
  {expressions : List (Option AggregateNode)} {groups : List Nat}

def push (result : CudfAggregateDefinitions) (aggr : AggregateNode) (es : List CudfAggregate) :
    CudfAggregateDefinitions :=
  { result with
    cudfAggregates := result.cudfAggregates ++ es
    aggregateSlots := result.aggregateSlots ++
      [⟨aggr.isAvg, aggr.isCountDistinct, result.cudfAggregates.length⟩] }

theorem convertAggregate_eq_ok_iff :
    convertAggregate result aggregate = .ok defs ↔
      ∃ aggr es, aggregate = some aggr ∧ aggr.cudfAggregates = .ok es ∧
        push result aggr es = defs := by
  cases aggregate with
  | none =>
    constructor
    · rintro ⟨⟩
    · rintro ⟨aggr, es, ⟨⟩, -⟩
  | some aggr =>
    show (aggr.cudfAggregates >>= fun es => .ok (push result aggr es)) = .ok defs ↔ _
    simp [bind_eq_ok_iff]

variable {es : List CudfAggregate}

theorem reads_push (aggr : AggregateNode) (hes : aggr.cudfAggregates = .ok es) :
    AggregateSlot.Reads ⟨aggr.isAvg, aggr.isCountDistinct, result.cudfAggregates.length⟩
      (push result aggr es).cudfAggregates (some aggr) :=
  ⟨aggr, es, rfl, hes, rfl, rfl, result.cudfAggregates, [], by simp [push], rfl⟩

/-- **Slots.** Every slot reads the entries of its own node. -/
theorem convert_reads (h : convertDuckdbAggregatesToCudf groups expressions = .ok defs) :
    defs.groupIdx = groups ∧
      List.Forall₂ (·.Reads defs.cudfAggregates) defs.aggregateSlots expressions := by
  refine foldlM_rec (P := fun done defs => defs.groupIdx = groups ∧
    List.Forall₂ (·.Reads defs.cudfAggregates) defs.aggregateSlots done) h ⟨rfl, .nil⟩ ?_
  rintro done _ _ _ - ⟨hgroups, hreads⟩ hstep
  obtain ⟨aggr, es, rfl, hes, rfl⟩ := convertAggregate_eq_ok_iff.1 hstep
  exact ⟨hgroups, List.rel_append (hreads.imp fun _ _ hr => hr.append es)
    (.cons (reads_push aggr hes) .nil)⟩

end Sirius.Aggregate
