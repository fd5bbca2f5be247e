import Sirius.Expression.Filter
import Sirius.Expression.Translator

/-!
# Translated trees and the executor

A translated tree has the value of the tree in which every bound of a BETWEEN is included
(`eval_addExpression`). So pushing a predicate down keeps its value exactly at the rows where it does
not matter whether the bounds are included (`translation_agrees_iff`). For the conditions of a join
the tree is their conjunction over the columns of both tables.
-/

namespace Sirius.Expression

open List

open Sirius.Lib

variable {V : Type} {w w' n : Nat}

namespace Node

/-! ## Inclusive bounds -/

mutual

/-- The tree with all bounds of BETWEEN included. -/
def inclusive : Node V w → Node V w
  | .reference column type => .reference column type
  | .constant payload type => .constant payload type
  | .comparison op left right => .comparison op (inclusive left) (inclusive right)
  | .conjunction op children => .conjunction op (inclusives children)
  | .between input lower upper _ _ =>
    .between (inclusive input) (inclusive lower) (inclusive upper) true true
  | .caseExpr cases otherwise type => .caseExpr (inclusiveCases cases) (inclusive otherwise) type
  | .cast child target => .cast (inclusive child) target
  | .unaryOp op child => .unaryOp op (inclusive child)
  | .coalesce first rest type => .coalesce (inclusive first) (inclusives rest) type
  | .inList probe values negated => .inList (inclusive probe) (inclusives values) negated
  | .functionCall function arguments type => .functionCall function (inclusives arguments) type

def inclusives : List (Node V w) → List (Node V w)
  | [] => []
  | node :: nodes => inclusive node :: inclusives nodes

def inclusiveCases : List (Node V w × Node V w) → List (Node V w × Node V w)
  | [] => []
  | (condition, branch) :: cases => (inclusive condition, inclusive branch) :: inclusiveCases cases

end

/-! ## Trees over a wider table -/

mutual

/-- The tree over another table, of which it sees some columns. -/
def relabel (f : Fin (w + 1) → Fin (w' + 1)) : Node V w → Node V w'
  | .reference column type => .reference (f column) type
  | .constant payload type => .constant payload type
  | .comparison op left right => .comparison op (relabel f left) (relabel f right)
  | .conjunction op children => .conjunction op (relabels f children)
  | .between input lower upper lowerInclusive upperInclusive =>
    .between (relabel f input) (relabel f lower) (relabel f upper) lowerInclusive upperInclusive
  | .caseExpr cases otherwise type => .caseExpr (relabelCases f cases) (relabel f otherwise) type
  | .cast child target => .cast (relabel f child) target
  | .unaryOp op child => .unaryOp op (relabel f child)
  | .coalesce first rest type => .coalesce (relabel f first) (relabels f rest) type
  | .inList probe values negated => .inList (relabel f probe) (relabels f values) negated
  | .functionCall function arguments type => .functionCall function (relabels f arguments) type

def relabels (f : Fin (w + 1) → Fin (w' + 1)) : List (Node V w) → List (Node V w')
  | [] => []
  | node :: nodes => relabel f node :: relabels f nodes

def relabelCases (f : Fin (w + 1) → Fin (w' + 1)) :
    List (Node V w × Node V w) → List (Node V w' × Node V w')
  | [] => []
  | (condition, branch) :: cases => (relabel f condition, relabel f branch) :: relabelCases f cases

end

mutual

theorem relabel_id : ∀ node : Node V w, node.relabel id = node
  | .reference .. | .constant .. => rfl
  | .comparison _ left right => by rw [relabel, relabel_id left, relabel_id right]
  | .conjunction _ children => by rw [relabel, relabels_id children]
  | .between input lower upper _ _ => by
    rw [relabel, relabel_id input, relabel_id lower, relabel_id upper]
  | .caseExpr cases otherwise _ => by rw [relabel, relabelCases_id cases, relabel_id otherwise]
  | .cast child _ | .unaryOp _ child => by rw [relabel, relabel_id child]
  | .coalesce first rest _ => by rw [relabel, relabel_id first, relabels_id rest]
  | .inList probe values _ => by rw [relabel, relabel_id probe, relabels_id values]
  | .functionCall _ arguments _ => by rw [relabel, relabels_id arguments]

theorem relabels_id : ∀ nodes : List (Node V w), relabels id nodes = nodes
  | [] => rfl
  | node :: nodes => by rw [relabels, relabel_id node, relabels_id nodes]

theorem relabelCases_id : ∀ cases : List (Node V w × Node V w), relabelCases id cases = cases
  | [] => rfl
  | (condition, branch) :: cases => by
    rw [relabelCases, relabel_id condition, relabel_id branch, relabelCases_id cases]

end

mutual

theorem inclusive_relabel (f : Fin (w + 1) → Fin (w' + 1)) : ∀ node : Node V w,
    (node.relabel f).inclusive = node.inclusive.relabel f
  | .reference .. | .constant .. => rfl
  | .comparison _ left right => by
    simp only [relabel, inclusive, inclusive_relabel f left, inclusive_relabel f right]
  | .conjunction _ children => by simp only [relabel, inclusive, inclusives_relabels f children]
  | .between input lower upper _ _ => by
    simp only [relabel, inclusive, inclusive_relabel f input, inclusive_relabel f lower,
      inclusive_relabel f upper]
  | .caseExpr cases otherwise _ => by
    simp only [relabel, inclusive, inclusiveCases_relabelCases f cases,
      inclusive_relabel f otherwise]
  | .cast child _ | .unaryOp _ child => by simp only [relabel, inclusive, inclusive_relabel f child]
  | .coalesce first rest _ => by
    simp only [relabel, inclusive, inclusive_relabel f first, inclusives_relabels f rest]
  | .inList probe values _ => by
    simp only [relabel, inclusive, inclusive_relabel f probe, inclusives_relabels f values]
  | .functionCall _ arguments _ => by simp only [relabel, inclusive, inclusives_relabels f arguments]

theorem inclusives_relabels (f : Fin (w + 1) → Fin (w' + 1)) : ∀ nodes : List (Node V w),
    inclusives (relabels f nodes) = relabels f (inclusives nodes)
  | [] => rfl
  | node :: nodes => by
    simp only [relabels, inclusives, inclusive_relabel f node, inclusives_relabels f nodes]

theorem inclusiveCases_relabelCases (f : Fin (w + 1) → Fin (w' + 1)) :
    ∀ cases : List (Node V w × Node V w),
      inclusiveCases (relabelCases f cases) = relabelCases f (inclusiveCases cases)
  | [] => rfl
  | (condition, branch) :: cases => by
    simp only [relabelCases, inclusiveCases, inclusive_relabel f condition,
      inclusive_relabel f branch, inclusiveCases_relabelCases f cases]

end

end Node

/-! ## Values of translated trees -/

namespace Translator

open Executor

variable [Element V]

theorem eval_foldl_binary (dev : Cudf V) (rows : RowPair V) (op : BinaryOperator) (out : DataType)
    (es : List (TranslatedExpr V)) (e : TranslatedExpr V) :
    (es.foldl (.binary op out) e).eval dev rows =
      (es.map (·.eval dev rows)).foldl (op.apply dev out) (e.eval dev rows) := by
  rw [foldl_map]
  exact (foldl_hom (fun e : TranslatedExpr V => e.eval dev rows) fun _ _ => rfl).symm

variable (columnNameResolver : Option (Nat → String)) (tableSrc : TableReference)
  (rows : RowPair V) (x : Executor V w' n) (f : Fin (w + 1) → Fin (w' + 1)) (i : Fin n)

/-- The columns a translated tree refers to are columns of the executor's table, at a row. -/
def Sees : Prop :=
  ∀ c : Fin (w + 1), (match columnNameResolver with
    | some name => rows.named (name c)
    | none => rows.column tableSrc c) = (x.input (f c)).rows i

variable {columnNameResolver tableSrc rows x f i} {e : TranslatedExpr V} {es : List (TranslatedExpr V)}
  {wl wr : Nat}

theorem eval_addConstant {payload : Option V} {type : LogicalType}
    (h : addConstant payload type = .ok (some e)) : e.eval x.dev rows = payload := by
  cases payload with
  | none => cases h
  | some value =>
    obtain ⟨t, -, h⟩ := bind_eq_ok_iff.1 h
    split at h
    · cases h
    · split at h
      · cases h
        rfl
      · cases h

theorem eval_addUnaryOp {op : UnaryKind} {child : TranslatedExpr V} {c : Column V n}
    (hchild : child.eval x.dev rows = c.rows i) (h : addUnaryOp op child = .ok (some e)) :
    e.eval x.dev rows = (unaryOpColumn op c).rows i := by
  cases op <;> cases h <;>
    simp [TranslatedExpr.eval, AstUnary.onValue, unaryOpColumn, Column.isNull, Column.logicalNot,
      hchild]

theorem eval_addCast {target : LogicalType} {child : TranslatedExpr V} {c : Column V n}
    (hchild : child.eval x.dev rows = c.rows i) (h : addCast child target = .ok (some e)) :
    e.eval x.dev rows = (c.cast x.dev (cudfType target)).rows i := by
  obtain ⟨t, ht, h⟩ := bind_eq_ok_iff.1 h
  split at h
  · cases h
    have htype : cudfType target = t := by rw [cudfType, ht]; rfl
    rw [TranslatedExpr.eval, AstUnary.onValue, hchild, htype]
    rfl
  · cases h

theorem eval_combine {op : BinaryOperator} {cs : List (Column V n)}
    (hes : es.map (·.eval x.dev rows) = cs.map (·.rows i)) (h : combine op es = .ok (some e)) :
    ∃ c rest, cs = c :: rest ∧
      e.eval x.dev rows = (rest.foldl (.binary x.dev op .bool) c).rows i := by
  match es, cs with
  | [], _ => cases h
  | _ :: _, [] => cases hes
  | a :: as, c :: cs =>
    cases h
    simp only [map_cons, cons.injEq] at hes
    refine ⟨c, cs, rfl, ?_⟩
    rw [rows_foldl_binary, eval_foldl_binary, hes.1, hes.2]

theorem eval_addInList {probe : TranslatedExpr V} {negated : Bool} {p : Column V n}
    {cs : List (Column V n)} (hprobe : probe.eval x.dev rows = p.rows i)
    (hes : es.map (·.eval x.dev rows) = cs.map (·.rows i))
    (h : addInList probe negated es = .ok (some e)) : ∃ c rest, cs = c :: rest ∧
      e.eval x.dev rows = (negateIf negated (x.inListFold p
        (.binary x.dev (.comparison .equal) .bool p c) rest)).rows i := by
  have hfold (es : List (TranslatedExpr V)) (out : TranslatedExpr V) :
      (es.foldl (fun acc value => .binary .logicalOr .bool acc
        (.binary (.comparison .equal) .bool probe value)) out).eval x.dev rows =
      (es.map (·.eval x.dev rows)).foldl (fun out a => BinaryOperator.logicalOr.apply x.dev .bool out
        ((BinaryOperator.comparison .equal).apply x.dev .bool (p.rows i) a))
        (out.eval x.dev rows) := by
    rw [foldl_map, ← hprobe]
    exact (foldl_hom (fun e : TranslatedExpr V => e.eval x.dev rows) fun _ _ => rfl).symm
  match es, cs with
  | [], _ => cases h
  | _ :: _, [] => cases hes
  | a :: as, c :: cs =>
    simp only [map_cons, cons.injEq] at hes
    refine ⟨c, cs, rfl, ?_⟩
    have hchain := hfold as (.binary (.comparison .equal) .bool probe a)
    have hcolumn := rows_inListFold p (.binary x.dev (.comparison .equal) .bool p c) cs i (x := x)
    rw [TranslatedExpr.eval, hprobe, hes.1, hes.2] at hchain
    cases negated with
    | false =>
      cases h
      exact hchain.trans hcolumn.symm
    | true =>
      cases h
      exact congrArg (Option.map fun v => ofBool (!truth v)) (hchain.trans hcolumn.symm)

mutual

/-- **A translated tree has the value of the tree with inclusive bounds.** -/
theorem eval_addExpression (hsees : Sees columnNameResolver tableSrc rows x f i) :
    ∀ (node : Node V w) (e : TranslatedExpr V),
      addExpression columnNameResolver tableSrc node = .ok (some e) →
        e.eval x.dev rows = (x.meaning (node.inclusive.relabel f)).rows i
  | .reference c type, e, h => by
    have hc := hsees c
    cases columnNameResolver <;> cases h <;> exact hc
  | .constant payload type, e, h => eval_addConstant h
  | .comparison op left right, e, h => by
    obtain ⟨⟨l, r⟩, hboth, h⟩ := Attempt.andThen_eq_some_iff.1 h
    obtain ⟨hl, hr⟩ := Attempt.both_eq_some_iff.1 hboth
    simp only [addComparison] at h
    split at h
    · cases h
    · cases h
      simp only [TranslatedExpr.eval, Node.inclusive, Node.relabel, meaning, Column.binary]
      rw [eval_addExpression hsees left l hl, eval_addExpression hsees right r hr]
  | .conjunction op children, e, h => by
    obtain ⟨es, hes, h⟩ := Attempt.andThen_eq_some_iff.1 h
    have hchildren := eval_addExpressions hsees children es hes
    obtain ⟨c, cs, hcs, heval⟩ := eval_combine hchildren h
    simp only [Node.inclusive, Node.relabel, meaning, hcs]
    exact heval
  | .between input lower upper _ _, e, h => by
    obtain ⟨⟨a, l, u⟩, hboth, h⟩ := Attempt.andThen_eq_some_iff.1 h
    obtain ⟨ha, hlu⟩ := Attempt.both_eq_some_iff.1 hboth
    obtain ⟨hl, hu⟩ := Attempt.both_eq_some_iff.1 hlu
    cases h
    simp only [addBetween, TranslatedExpr.eval, Node.inclusive, Node.relabel, meaning,
      Column.binary, lowerOp, upperOp, if_true]
    rw [eval_addExpression hsees input a ha, eval_addExpression hsees lower l hl,
      eval_addExpression hsees upper u hu]
  | .caseExpr .., e, h => nomatch h
  | .cast child target, e, h => by
    obtain ⟨c, hc, h⟩ := Attempt.andThen_eq_some_iff.1 h
    exact eval_addCast (eval_addExpression hsees child c hc) h
  | .unaryOp op child, e, h => by
    obtain ⟨c, hc, h⟩ := Attempt.andThen_eq_some_iff.1 h
    exact eval_addUnaryOp (eval_addExpression hsees child c hc) h
  | .coalesce .., e, h => nomatch h
  | .inList probe values negated, e, h => by
    rw [addExpression] at h
    split at h
    · cases h
    · obtain ⟨p, hp, h⟩ := Attempt.andThen_eq_some_iff.1 h
      obtain ⟨es, hes, h⟩ := Attempt.andThen_eq_some_iff.1 h
      obtain ⟨c, cs, hcs, heval⟩ := eval_addInList (eval_addExpression hsees probe p hp)
        (eval_addExpressions hsees values es hes) h
      simp only [Node.inclusive, Node.relabel, meaning, hcs]
      exact heval
  | .functionCall function [left, right] type, e, h => by
    rw [addExpression] at h
    split at h
    · cases h
    · next hfunction =>
      obtain ⟨⟨l, r⟩, hboth, h⟩ := Attempt.andThen_eq_some_iff.1 h
      obtain ⟨hl, hr⟩ := Attempt.both_eq_some_iff.1 hboth
      cases h
      simp only [not_or, not_not] at hfunction
      simp only [Node.inclusive, Node.relabel, Node.inclusives, Node.relabels, meaning, meanings,
        hfunction.2.2, if_true, Column.binary, TranslatedExpr.eval]
      rw [eval_addExpression hsees left l hl, eval_addExpression hsees right r hr]
      rfl
  | .functionCall _ [] _, e, h | .functionCall _ [_] _, e, h
  | .functionCall _ (_ :: _ :: _ :: _) _, e, h => nomatch h

theorem eval_addExpressions (hsees : Sees columnNameResolver tableSrc rows x f i) :
    ∀ (nodes : List (Node V w)) (es : List (TranslatedExpr V)),
      addExpressions columnNameResolver tableSrc nodes = .ok (some es) →
        es.map (·.eval x.dev rows) =
          (x.meanings (Node.relabels f (Node.inclusives nodes))).map (·.rows i)
  | [], es, h => by cases h; rfl
  | node :: nodes, es, h => by
    obtain ⟨e, he, h⟩ := Attempt.andThen_eq_some_iff.1 h
    obtain ⟨es', hes, h⟩ := Attempt.andThen_eq_some_iff.1 h
    cases h
    simp only [Node.inclusives, Node.relabels, meanings, map_cons]
    rw [eval_addExpression hsees node e he, eval_addExpressions hsees nodes es' hes]

end

/-! ## Join conditions -/

def sideTree (side : Option (Node V w)) : Node V w := side.getD (.constant none (.make .sqlNull))

/-- A condition over the columns of the left table and, behind them, of the right one. -/
def JoinCondition.tree (condition : JoinCondition V wl wr) : Node V (wl + 1 + wr) :=
  .comparison condition.comparison
    ((sideTree condition.left).relabel (Fin.castAdd (wr + 1)))
    ((sideTree condition.right).relabel (Fin.natAdd (wl + 1)))

def joinTree (conditions : List (JoinCondition V wl wr)) : Node V (wl + 1 + wr) :=
  .conjunction .opAnd (conditions.map JoinCondition.tree)

/-- A pair of rows whose left row is in the left columns of a table, or in the right ones if the
sides are swapped. -/
structure SeesPair (swapSides : Bool) (rows : RowPair V) (y : Executor V (wl + 1 + wr) n)
    (i : Fin n) : Prop where
  left : ∀ c : Fin (wl + 1), rows.column (if swapSides then .right else .left) c =
    (y.input (Fin.castAdd (wr + 1) c)).rows i
  right : ∀ c : Fin (wr + 1), rows.column (if swapSides then .left else .right) c =
    (y.input (Fin.natAdd (wl + 1) c)).rows i

variable {y : Executor V (wl + 1 + wr) n} {conditions : List (JoinCondition V wl wr)}

theorem eval_addSide {tableSrc : TableReference} {f : Fin (w + 1) → Fin (w' + 1)}
    {x : Executor V w' n} {side : Option (Node V w)} (hsees : Sees none tableSrc rows x f i)
    (h : addSide tableSrc side = .ok (some e)) :
    e.eval x.dev rows = (x.meaning ((sideTree side).inclusive.relabel f)).rows i := by
  cases side with
  | none => cases h
  | some node => exact eval_addExpression hsees node e h

theorem eval_addJoinCondition {swapSides : Bool} {condition : JoinCondition V wl wr}
    (hsees : SeesPair swapSides rows y i) (h : addJoinCondition swapSides condition = .ok (some e)) :
    e.eval y.dev rows = (y.meaning condition.tree.inclusive).rows i := by
  obtain ⟨l, hl, h⟩ := Attempt.andThen_eq_some_iff.1 h
  obtain ⟨r, hr, h⟩ := Attempt.andThen_eq_some_iff.1 h
  unfold addComparison at h
  split at h
  · cases h
  · cases h
    simp only [JoinCondition.tree, Node.inclusive, Node.inclusive_relabel, meaning, Column.binary,
      TranslatedExpr.eval]
    rw [eval_addSide hsees.left hl, eval_addSide hsees.right hr]

omit [Element V] in
/-- The conditions between two places, each with its result. -/
theorem forall₂_conditions {P : JoinCondition V wl wr → TranslatedExpr V → Prop} {k : Nat}
    {startIdx : Nat} {f : JoinCondition V wl wr → Attempt (TranslatedExpr V)}
    (hf : ∀ c e, f c = .ok (some e) → P c e)
    (h : List.Forall₂ (fun i e => (conditionAt conditions i).bind f =
      .ok (some e)) (List.range' startIdx k) es) :
    List.Forall₂ P ((conditions.drop startIdx).take k) es := by
  induction k generalizing startIdx es with
  | zero =>
    obtain rfl := List.forall₂_nil_left_iff.1 h
    simp
  | succ k ih =>
    obtain ⟨e, es, he, hes, rfl⟩ := List.forall₂_cons_left_iff.1 h
    obtain ⟨c, hc, he⟩ := bind_eq_ok_iff.1 he
    have hat : conditions[startIdx]? = some c := by
      unfold conditionAt at hc
      split at hc
      · next hsome =>
        cases hc
        exact hsome
      · cases hc
    obtain ⟨hlt, rfl⟩ := List.getElem?_eq_some_iff.1 hat
    rw [List.drop_eq_getElem_cons hlt, List.take_succ_cons]
    exact .cons (hf _ e he) (ih hes)

theorem eval_translateJoinConditions {startIdx endIdx : Nat} {swapSides : Bool}
    (hsees : SeesPair swapSides rows y i)
    (h : translateJoinConditions conditions startIdx endIdx swapSides = .ok (some e)) :
    e.eval y.dev rows =
      (y.meaning (joinTree ((conditions.drop startIdx).take (endIdx - startIdx))).inclusive).rows
        i := by
  unfold translateJoinConditions at h
  split at h
  · cases h
  · obtain ⟨es, hes, h⟩ := Attempt.andThen_eq_some_iff.1 h
    have hall := forall₂_conditions (fun c e hc => eval_addJoinCondition hsees hc)
      (Attempt.each_eq_some_iff.1 hes)
    generalize (conditions.drop startIdx).take (endIdx - startIdx) = slice at hall ⊢
    have hvalues : es.map (·.eval y.dev rows) =
        (y.meanings (Node.inclusives (slice.map JoinCondition.tree))).map (·.rows i) := by
      clear h hes
      induction hall with
      | nil => rfl
      | cons hc _ ih => rw [map_cons, hc, ih]; rfl
    obtain ⟨c, cs, hcs, heval⟩ := eval_combine hvalues h
    simp only [joinTree, Node.inclusive, meaning, hcs]
    exact heval

/-! ## Agreement -/

end Translator

def Executor.Computes [Element V] (x : Executor V w n) (tree : Node V w) (column : Column V n) :
    Prop :=
  ∃ result temps, x.execute tree .materialize ⟨[], []⟩ = .ok (result, temps) ∧
    result.operand = .ok column

variable {x : Executor V w n}

theorem Executor.Computes.eq_meaning [Element V] {tree : Node V w} {column : Column V n}
    (h : x.Computes tree column) : column = x.meaning tree := by
  obtain ⟨result, temps, hrun, hcolumn⟩ := h
  have houtcome := (runs x tree).materialize ⟨[], []⟩
  by_cases ha : x.Accepts tree .materialize
  · obtain ⟨result', temps', hrun', -, hresult⟩ := houtcome.1 ha
    obtain ⟨rfl, rfl⟩ : result = result' ∧ temps = temps' := by
      simpa [hrun] using hrun'
    exact Except.ok.inj (hcolumn.symm.trans hresult.operand)
  · obtain ⟨e, he⟩ := houtcome.2 ha
    rw [hrun] at he
    cases he

namespace Translator

variable [Element V]

def BoundsIrrelevant (x : Executor V w n) (tree : Node V w) (i : Fin n) : Prop :=
  (x.meaning tree.inclusive).rows i = (x.meaning tree).rows i

/-- The translated tree has the value that the executor computes exactly if the bounds of BETWEEN may
be read as included. -/
def AgreesIff (x : Executor V w n) (tree : Node V w) (i : Fin n) (rows : RowPair V)
    (e : TranslatedExpr V) : Prop :=
  ∀ column, x.Computes tree column →
    (e.eval x.dev rows = column.rows i ↔ BoundsIrrelevant x tree i)

variable {e : TranslatedExpr V}

theorem agreesIff_of_eval {tree : Node V w} {i : Fin n} {rows : RowPair V}
    (h : e.eval x.dev rows = (x.meaning tree.inclusive).rows i) : AgreesIff x tree i rows e := by
  intro column hcolumn
  rw [h, hcolumn.eq_meaning]
  rfl

theorem rows_between (x : Executor V w n) (input lower upper : Node V w)
    (lowerInclusive upperInclusive : Bool) (i : Fin n) :
    (x.meaning (.between input lower upper lowerInclusive upperInclusive)).rows i =
      ((x.meaning input).rows i).bind fun a => ((x.meaning lower).rows i).bind fun l =>
        ((x.meaning upper).rows i).map fun u =>
          ofBool ((if lowerInclusive then decide (l ≤ a) else decide (l < a)) &&
            (if upperInclusive then decide (a ≤ u) else decide (a < u))) := by
  simp only [Executor.meaning, Column.binary, Executor.lowerOp, Executor.upperOp,
    BinaryOperator.apply]
  cases (x.meaning input).rows i <;> cases (x.meaning lower).rows i <;>
    cases (x.meaning upper).rows i <;> cases lowerInclusive <;> cases upperInclusive <;>
    simp [ComparisonType.sql, ComparisonType.test]

/-- For one BETWEEN the bounds matter where the input is at a bound that is not included and within the
other one. -/
theorem boundsIrrelevant_between_iff {input lower upper : Node V w}
    (hinput : input.inclusive = input) (hlower : lower.inclusive = lower)
    (hupper : upper.inclusive = upper) (lowerInclusive upperInclusive : Bool) (i : Fin n) :
    BoundsIrrelevant x (.between input lower upper lowerInclusive upperInclusive) i ↔
      ∀ a l u, (x.meaning input).rows i = some a → (x.meaning lower).rows i = some l →
        (x.meaning upper).rows i = some u →
          ¬ (l ≤ a ∧ a ≤ u ∧ (lowerInclusive = false ∧ a = l ∨ upperInclusive = false ∧ a = u)) := by
  have hinj : ∀ b c : Bool, (ofBool b : V) = ofBool c ↔ b = c :=
    fun b c => ⟨fun h => by simpa using congrArg truth h, congrArg ofBool⟩
  rw [BoundsIrrelevant, Node.inclusive, hinput, hlower, hupper, rows_between, rows_between]
  cases (x.meaning input).rows i with
  | none => simp
  | some a =>
    cases (x.meaning lower).rows i with
    | none => simp
    | some l =>
      cases (x.meaning upper).rows i with
      | none => simp
      | some u =>
        simp only [Option.bind_some, Option.map_some, Option.some.injEq, hinj, if_true]
        cases lowerInclusive <;> cases upperInclusive <;> grind

/-- **A pushed-down tree has the value that the executor computes if and only if** it does not matter
at the row whether the bounds of BETWEEN are included. This holds for trees over columns by number and
by name, and for conditions of a join with any assignment of sides. -/
theorem translation_agrees_iff (x : Executor V w n) (i : Fin n) (rows : RowPair V) :
    (∀ tree tableSrc e, translateExpression tableSrc tree = .ok (some e) →
      (∀ c : Fin (w + 1), rows.column tableSrc c = (x.input c).rows i) →
        AgreesIff x tree i rows e) ∧
    (∀ tree name e, translateExpressionWithNames tree name = .ok (some e) →
      (∀ c : Fin (w + 1), rows.named (name c) = (x.input c).rows i) →
        AgreesIff x tree i rows e) ∧
    (∀ (wl wr : Nat) (y : Executor V (wl + 1 + wr) n) conditions startIdx endIdx swapSides e,
      translateJoinConditions conditions startIdx endIdx swapSides = .ok (some e) →
      SeesPair swapSides rows y i →
        AgreesIff y (joinTree ((conditions.drop startIdx).take (endIdx - startIdx))) i rows e) := by
  refine ⟨?_, ?_, ?_⟩
  · intro tree tableSrc e h hsees
    have hsees : Sees none tableSrc rows x id i := hsees
    have heval := eval_addExpression hsees tree e h
    rw [Node.relabel_id] at heval
    exact agreesIff_of_eval heval
  · intro tree name e h hsees
    have hsees : Sees (some name) .left rows x id i := hsees
    have heval := eval_addExpression hsees tree e h
    rw [Node.relabel_id] at heval
    exact agreesIff_of_eval heval
  · intro wl wr y conditions startIdx endIdx swapSides e h hsees
    exact agreesIff_of_eval (eval_translateJoinConditions hsees h)

def fiveToNine (lowerInclusive : Bool) : Node Datum 0 :=
  .between (.reference (Fin.last 0) (.make .bigint)) (.constant (some (.inr 5)) (.make .bigint))
    (.constant (some (.inr 9)) (.make .bigint)) lowerInclusive true

def five : Executor Datum 0 1 where
  dev := Datum.cudf
  strategy := .materialize
  minAstSize := 2
  input _ := ⟨⟨.int64, 0⟩, fun _ => some (.inr 5)⟩

/-- The row as a reader sees it. -/
def fiveRow : RowPair Datum := ⟨fun _ _ => some (.inr 5), fun _ => some (.inr 5)⟩

theorem translation_agrees_fiveToNine : ∃ e column,
    translateExpressionWithNames (fiveToNine true) (fun _ => "x") = .ok (some e) ∧
      five.Computes (fiveToNine true) column ∧ e.eval five.dev fiveRow = column.rows 0 := by
  have hcomputes : five.Computes (fiveToNine true) _ := ⟨_, _, rfl, rfl⟩
  exact ⟨_, _, rfl, hcomputes,
    ((translation_agrees_iff five 0 fiveRow).2.1 _ (fun _ => "x") _ rfl (fun _ => rfl) _
      hcomputes).2 rfl⟩

/-- **With the bound 5 excluded, the executor drops the row and the reader keeps it.** -/
theorem excluded_bound_pushed_down : ∃ e column,
    translateExpressionWithNames (fiveToNine false) (fun _ => "x") = .ok (some e) ∧
      five.Computes (fiveToNine false) column ∧ column.rows 0 = some (ofBool false) ∧
        e.eval five.dev fiveRow = some (ofBool true) :=
  ⟨_, _, rfl, ⟨_, _, rfl, rfl⟩, rfl, rfl⟩

end Translator

end Sirius.Expression
