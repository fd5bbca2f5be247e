import Sirius.Expression.Meaning

/-!
# The executor computes the meaning

An AST handed to a parent refers to slots of the executor. `Built` says that these slots are filled,
that they were added since a given state, and that the AST reads a given column from them. Nodes
executed later only add slots and release the ones they added, so what was built stays built until
the enclosing AST is run.
-/

namespace Sirius.Expression

open Sirius.Lib
open Outcome (bind_lift bind_ok last)

variable {V : Type} {w n : Nat} (temps : Temps V n)

/-! ## Slots -/

/-- All slots are still as they were. -/
structure Temps.Extends (old new : Temps V n) : Prop where
  scalars : old.scalars <+: new.scalars
  columns : old.columns <+: new.columns

theorem Temps.Extends.refl : temps.Extends temps :=
  ⟨List.prefix_rfl, List.prefix_rfl⟩

theorem Temps.Extends.trans {a b c : Temps V n} (h : a.Extends b) (h' : b.Extends c) :
    a.Extends c :=
  ⟨h.scalars.trans h'.scalars, h.columns.trans h'.columns⟩

/-- The slots of an AST were added since a state. -/
structure AstResult.Fresh (result : AstResult) (old : Temps V n) : Prop where
  scalars : ∀ i ∈ result.tempScalarIndices, old.scalars.length ≤ i
  columns : ∀ i ∈ result.tempColumnIndices, old.columns.length ≤ i

variable {old : Temps V n} {result a : AstResult}

theorem AstResult.Fresh.mono {new : Temps V n} (h : result.Fresh new) (he : old.Extends new) :
    result.Fresh old :=
  ⟨fun i hi => he.scalars.length_le.trans (h.scalars i hi),
    fun i hi => he.columns.length_le.trans (h.columns i hi)⟩

theorem AstResult.Fresh.append {b : AstResult} (ha : a.Fresh old) (hb : b.Fresh old)
    (expr : AstExpr) : AstResult.Fresh ⟨expr,
      a.tempScalarIndices ++ b.tempScalarIndices, a.tempColumnIndices ++ b.tempColumnIndices⟩ old :=
  ⟨fun i hi => (List.mem_append.1 hi).elim (ha.scalars i) (hb.scalars i),
    fun i hi => (List.mem_append.1 hi).elim (ha.columns i) (hb.columns i)⟩

namespace Executor

/-! ## Materialised results -/

/-- A materialised result of a given kind, which holds a given column and, as a scalar, a given
value. -/
def IsResult (k : Kind) (v : Option V) (c : Column V n) (result : Result V n) : Prop :=
  match k with
  | .view => result = .columnView c
  | .owned => result = .column c
  | .scalar => result = .scalar ⟨c.type, v⟩ ∧ c = .ofScalar ⟨c.type, v⟩

section IsResult

variable {k k' : Kind} {v v' : Option V} {c d : Column V n} {result left right : Result V n}

theorem IsResult.ofColumn (v : Option V) (c : Column V n) : IsResult .owned v c (.column c) := rfl

section

variable (h : IsResult k v c result)

include h

/-- The value of a scalar matters only for a scalar. -/
theorem IsResult.of_ne_scalar (hk : k ≠ .scalar) : IsResult k v' c result := by
  cases k with
  | view => exact h
  | owned => exact h
  | scalar => exact absurd rfl hk

theorem IsResult.operand : result.operand = .ok c := by
  cases k with
  | view | owned => obtain rfl : result = _ := h; rfl
  | scalar =>
    obtain ⟨rfl, hc⟩ : result = _ ∧ _ := h
    exact congrArg Except.ok hc.symm

theorem IsResult.columnOfScalar :
    IsResult (if k = .scalar then .owned else k) v c result.columnOfScalar := by
  cases k with
  | view | owned => obtain rfl : result = _ := h; rfl
  | scalar =>
    obtain ⟨rfl, hc⟩ : result = _ ∧ _ := h
    exact congrArg Result.column hc.symm

theorem IsResult.isScalar : result.isScalar = decide (k = .scalar) := by
  cases k with
  | view | owned => obtain rfl : result = _ := h; rfl
  | scalar => obtain ⟨rfl, hc⟩ : result = _ ∧ _ := h; rfl

theorem IsResult.getColumnView_iff {a : Column V n} :
    result.getColumnView = .ok a ↔ k ≠ .scalar ∧ a = c := by
  cases k with
  | view | owned => obtain rfl : result = _ := h; simp [Result.getColumnView, eq_comm]
  | scalar => obtain ⟨rfl, hc⟩ : result = _ ∧ _ := h; simp [Result.getColumnView]

theorem IsResult.getColumnView (hk : k ≠ .scalar) : result.getColumnView = .ok c :=
  h.getColumnView_iff.2 ⟨hk, rfl⟩

end

theorem IsResult.operands_iff (h : IsResult k v c left) (h' : IsResult k' v' d right)
    {a : Column V n × Column V n} :
    left.operands right = .ok a ↔ ¬ (k = .scalar ∧ k' = .scalar) ∧ a = (c, d) := by
  by_cases hk : k = .scalar
  · have hop : left.operands right = right.getColumnView.map fun b => (c, b) := by
      simp only [Result.operands, h.isScalar, hk, decide_true, if_true, h.operand]
      cases right.getColumnView <;> rfl
    rw [hop]
    by_cases hk' : k' = .scalar
    · obtain ⟨e, he⟩ : ∃ e, right.getColumnView = .error e := by
        cases hr : right.getColumnView with
        | ok b => exact absurd hk' (h'.getColumnView_iff.1 hr).1
        | error e => exact ⟨e, rfl⟩
      simp [he, hk, hk', Except.map]
    · simp [h'.getColumnView hk', hk', Except.map, eq_comm]
  · have hop : left.operands right = .ok (c, d) := by
      simp only [Result.operands, h.isScalar, hk, decide_false, h.getColumnView hk, h'.operand]
      rfl
    simp [hop, hk, eq_comm]

theorem IsResult.operands_cond (h : IsResult k v c left) (h' : IsResult k' v' d right) :
    ¬ (k = .scalar ∧ k' = .scalar) ↔ ∃ a, left.operands right = .ok a ∧ True := by
  simp [h.operands_iff h']

end IsResult

section Bind

variable {β : Type} {k : Kind} {v : Option V} {c : Column V n} {result : Result V n}
  {f : Column V n → Exec V n β} {temps : Temps V n} {P : Prop} {R : β → Temps V n → Prop}

theorem IsResult.bind_view (h : IsResult k v c result) (hf : Outcome (f c) temps P R) :
    Outcome (do let view ← result.getColumnView; f view : Exec V n β) temps (k ≠ .scalar ∧ P) R := by
  refine (bind_lift (C := fun _ => P) fun a ha => ?_).iff ?_
  · obtain ⟨-, rfl⟩ := h.getColumnView_iff.1 ha
    exact hf
  · simp [h.getColumnView_iff]

theorem IsResult.bind_operand (h : IsResult k v c result) (hf : Outcome (f c) temps P R) :
    Outcome (do let operand ← result.operand; f operand : Exec V n β) temps P R :=
  bind_ok h.operand hf

end Bind

/-! ## What an AST reads -/

variable [Element V] (x : Executor V w n)

def read (temps : Temps V n) : AstExpr → Option (Column V n)
  | .literal s => (content temps.scalars s).map .ofScalar
  | .columnReference c =>
    if h : c < w + 1 then some (x.input ⟨c, h⟩) else content temps.columns (c - (w + 1))
  | .unary op operand => (read temps operand).map (op.apply x.dev)
  | .binary op out lhs rhs =>
    (read temps lhs).bind fun a => (read temps rhs).map (.binary x.dev op out a)

variable {x} {c : Column V n}

/-- **What an AST reads does not change while slots are added.** -/
theorem read_mono {new : Temps V n} (h : old.Extends new) (expr : AstExpr)
    (hc : x.read old expr = some c) : x.read new expr = some c := by
  induction expr generalizing c with
  | literal s =>
    obtain ⟨a, ha, rfl⟩ := Option.map_eq_some_iff.1 hc
    exact Option.map_eq_some_iff.2 ⟨a, content_of_prefix h.scalars ha, rfl⟩
  | columnReference i =>
    by_cases hi : i < w + 1
    · simpa [read, hi] using hc
    · simp only [read, hi, dite_false] at hc ⊢
      exact content_of_prefix h.columns hc
  | unary op operand ih =>
    obtain ⟨a, ha, rfl⟩ := Option.map_eq_some_iff.1 hc
    exact Option.map_eq_some_iff.2 ⟨a, ih ha, rfl⟩
  | binary op out lhs rhs ihl ihr =>
    obtain ⟨a, ha, hab⟩ := Option.bind_eq_some_iff.1 hc
    obtain ⟨b, hb, rfl⟩ := Option.map_eq_some_iff.1 hab
    simp [read, ihl ha, ihr hb]

omit [Element V] in
theorem combined_input (i : Fin (w + 1)) : (x.combined temps)[(i : Nat)]? = some (x.input i) := by
  rw [combined, List.getElem?_append_left (by rw [List.length_ofFn]; exact i.isLt), List.getElem?_ofFn,
    dif_pos i.isLt]

omit [Element V] in
theorem combined_temp {i : Nat} (hi : ¬ i < w + 1)
    (hc : content temps.columns (i - (w + 1)) = some c) : (x.combined temps)[i]? = some c := by
  rw [combined, List.getElem?_append_right (by simpa using Nat.le_of_not_lt hi)]
  rw [content, Option.join_eq_some_iff] at hc
  simp [hc]

/-- **Running an AST gives the column it reads.** -/
theorem computeColumn_of_read (expr : AstExpr) (hc : x.read temps expr = some c) :
    computeColumn x.dev (x.combined temps) temps.scalars expr = .ok c := by
  induction expr generalizing c with
  | literal s =>
    obtain ⟨a, ha, rfl⟩ := Option.map_eq_some_iff.1 hc
    simp [computeColumn, ha]
  | columnReference i =>
    by_cases hi : i < w + 1
    · obtain rfl : x.input ⟨i, hi⟩ = c := by simpa [read, hi] using hc
      have := combined_input (x := x) temps ⟨i, hi⟩
      simp only at this
      simp [computeColumn, this]
    · simp only [read, hi, dite_false] at hc
      simp [computeColumn, combined_temp temps hi hc]
  | unary op operand ih =>
    obtain ⟨a, ha, rfl⟩ := Option.map_eq_some_iff.1 hc
    rw [computeColumn, ih ha]
    rfl
  | binary op out lhs rhs ihl ihr =>
    obtain ⟨a, ha, hab⟩ := Option.bind_eq_some_iff.1 hc
    obtain ⟨b, hb, rfl⟩ := Option.map_eq_some_iff.1 hab
    rw [computeColumn, ihl ha, ihr hb]
    rfl

/-! ## What is built and what is returned -/

variable (x)

/-- An AST, in a state that has grown since `old`: its slots are new and it reads `c`. -/
structure Built (old : Temps V n) (c : Column V n) (result : AstResult) (temps : Temps V n) :
    Prop where
  grown : old.Extends temps
  fresh : result.Fresh old
  reads : x.read temps result.expr = some c

variable {x} {temps : Temps V n} {d : Column V n}

theorem Built.unary {child : AstResult} (op : AstUnary) (h : x.Built old c child temps) :
    x.Built old (op.apply x.dev c) (unaryAst op child) temps :=
  ⟨h.grown, ⟨h.fresh.scalars, h.fresh.columns⟩, by simp [unaryAst, read, h.reads]⟩

/-- What was built stays built while the next operand is executed. -/
theorem Built.later {temps' : Temps V n} (h : x.Built old c result temps)
    (he : temps.Extends temps') : x.Built old c result temps' :=
  ⟨h.grown.trans he, h.fresh, read_mono he _ h.reads⟩

theorem Built.earlier {older : Temps V n} (h : x.Built old c result temps) (he : older.Extends old) :
    x.Built older c result temps :=
  ⟨he.trans h.grown, h.fresh.mono he, h.reads⟩

theorem Built.binary {left right : AstResult} (op : BinaryOperator) (out : DataType)
    (hl : x.Built old c left temps) (hr : x.Built old d right temps) :
    x.Built old (.binary x.dev op out c d) (binaryAst op out left right) temps :=
  ⟨hl.grown, hl.fresh.append hr.fresh _, by simp [binaryAst, read, hl.reads, hr.reads]⟩

variable (x)

/-- **What a node returns in a mode**: an AST that reads its column, or a result that holds it. -/
def Post (old : Temps V n) (mode : Mode) (k : Kind) (v : Option V) (c : Column V n)
    (result : Result V n) (temps : Temps V n) : Prop :=
  match mode with
  | .ast => ∃ a, result = .ast a ∧ x.Built old c a temps
  | .materialize => old.Extends temps ∧ IsResult k v c result

/-- The node returns exactly when it is accepted, and then what it should. -/
def Runs (node : Node V w) : Prop :=
  ∀ mode temps, (mode = .ast → x.strategy ≠ .materialize) →
    Outcome (x.execute node mode) temps (x.Accepts node mode)
      (x.Post temps mode (x.kind node) (scalarValue node) (x.meaning node))

variable {x} {node : Node V w}

omit [Element V] in
theorem useAst_ast (h : x.strategy ≠ .materialize) (k : Nat) : x.useAst .ast k = true := by
  simp [useAst, h]

omit [Element V] in
theorem strategy_of_useAst {mode : Mode} {k : Nat} (h : x.useAst mode k = true) :
    x.strategy ≠ .materialize := by
  simp only [useAst, Bool.and_eq_true, bne_iff_ne] at h
  exact h.1

/-- A child executed in AST mode, and what follows. -/
theorem Runs.bind_ast {β : Type} {f : AstResult → Exec V n β} {P : Prop} {R : β → Temps V n → Prop}
    (h : x.Runs node) (hs : x.strategy ≠ .materialize)
    (hf : ∀ a temps', x.Built temps (x.meaning node) a temps' → Outcome (f a) temps' P R) :
    Outcome (do let a ← (← x.execute node .ast).getAst; f a) temps (x.Accepts node .ast ∧ P) R := by
  apply (h .ast temps fun _ => hs).bind
  rintro - result temps' ⟨a, rfl, hb⟩
  exact hf a temps' hb

theorem Runs.materialize (h : x.Runs node) (temps : Temps V n) :
    Outcome (x.execute node .materialize) temps (x.Accepts node .materialize) fun result temps' =>
      temps.Extends temps' ∧ IsResult (x.kind node) (scalarValue node) (x.meaning node) result :=
  h .materialize temps nofun

variable (mode : Mode)

theorem finishAst_outcome (v : Option V) (h : x.Built old c a temps) :
    Outcome (x.finishAst mode a) temps True (x.Post old mode .owned v c) := by
  cases mode with
  | ast => exact Outcome.pure ⟨a, rfl, h⟩
  | materialize =>
    have hc := computeColumn_of_read temps a.expr h.reads
    refine ⟨fun _ => ⟨.column c, ⟨release temps.scalars a.tempScalarIndices,
      release temps.columns a.tempColumnIndices⟩, ?_, ?_, rfl⟩, fun h => absurd trivial h⟩
    · simp [finishAst, executeAst, releaseTemporaries, StateT.lift, hc, bind, StateT.bind,
        Except.bind, get, getThe, MonadStateOf.get, StateT.get, modify, modifyGet,
        MonadStateOf.modifyGet, StateT.modifyGet, pure, Except.pure]
      rfl
    · exact ⟨prefix_release h.grown.scalars _ h.fresh.scalars,
        prefix_release h.grown.columns _ h.fresh.columns⟩

variable {k : Kind} {v : Option V} {result : Result V n} {children : List (Node V w)}
  {output : AstResult}

theorem finishMaterialized_outcome (error : String) (he : old.Extends temps)
    (h : IsResult k v c result) :
    Outcome (finishMaterialized w mode error result) temps (mode = .ast → k = .owned)
      (x.Post old mode k v c) := by
  cases mode with
  | materialize => exact (Outcome.pure ⟨he, h⟩).iff (by simp)
  | ast =>
    by_cases hk : k = .owned
    · subst hk
      obtain rfl : result = .column c := h
      refine ⟨fun _ => ⟨_, _, rfl, _, rfl, ?_⟩, fun hn => absurd (fun _ => rfl) hn⟩
      refine ⟨he.trans ⟨List.prefix_rfl, List.prefix_append _ _⟩, ⟨nofun, ?_⟩, ?_⟩
      · intro i hi
        obtain rfl := List.mem_singleton.1 hi
        exact he.columns.length_le
      · have hn : ¬ w + 1 + temps.columns.length < w + 1 := by omega
        simp [read, hn]
    · refine ⟨fun h => absurd (h rfl) hk, fun _ => ⟨error, ?_⟩⟩
      cases k with
      | view => obtain rfl : result = _ := h; rfl
      | owned => exact absurd rfl hk
      | scalar => obtain ⟨rfl, hc⟩ : result = _ ∧ _ := h; rfl

theorem finishColumn_outcome (error : String) (v : Option V) (he : old.Extends temps) :
    Outcome (finishMaterialized w mode error (.column c)) temps True (x.Post old mode .owned v c) :=
  (finishMaterialized_outcome mode error he (k := .owned) rfl).iff (by simp)

/-! ## Leaves and operators -/

theorem runs_reference (i : Fin (w + 1)) (type : LogicalType) : x.Runs (.reference i type) := by
  intro mode temps _
  cases mode with
  | ast =>
    rw [execute, Accepts]
    have hread : x.read temps (.columnReference i) = some (x.input i) := dif_pos i.isLt
    exact Outcome.pure ⟨_, rfl, Temps.Extends.refl temps, ⟨nofun, nofun⟩, hread⟩
  | materialize =>
    rw [execute, Accepts]
    exact Outcome.pure ⟨Temps.Extends.refl temps, rfl⟩

theorem makeScalar_ok {payload : Option V} {type : LogicalType} {s : Scalar V}
    (h : makeScalar payload type = .ok s) : s = ⟨cudfType type, payload⟩ := by
  unfold makeScalar at h
  cases ht : getCudfType type with
  | error e =>
    rw [ht] at h
    cases h
  | ok t =>
    have hct : cudfType type = t := by simp [cudfType, ht, Except.toOption]
    rw [ht] at h
    simp only [bind, Except.bind] at h
    split at h
    · cases h
    · cases payload with
      | none =>
        cases h
        rw [hct]
      | some a =>
        simp only at h
        split at h
        · cases h
          rw [hct]
        · cases h

theorem runs_constant (payload : Option V) (type : LogicalType) :
    x.Runs (.constant payload type) := by
  intro mode temps _
  rw [execute_constant, accepts_constant]
  refine bind_lift fun s hs => ?_
  obtain rfl := makeScalar_ok hs
  cases mode with
  | materialize => exact Outcome.pure ⟨Temps.Extends.refl temps, rfl, rfl⟩
  | ast =>
    refine ⟨fun _ => ⟨_, _, rfl, _, rfl, ?_⟩, fun h => absurd trivial h⟩
    refine ⟨⟨List.prefix_append _ _, List.prefix_rfl⟩, ⟨?_, nofun⟩, ?_⟩
    · intro i hi
      exact (List.mem_singleton.1 hi).ge
    · simp [read, meaning, Column.ofScalar]

theorem logicalNot_notDistinct (dev : Cudf V) (c d : Column V n) :
    (Column.binary dev (.comparison .notDistinctFrom) .bool c d).logicalNot =
      .binary dev (.comparison .distinctFrom) .bool c d := by
  ext i
  · rfl
  · simp [Column.logicalNot, Column.binary, BinaryOperator.apply, ComparisonType.sql]

theorem Built.comparison {left right : AstResult} (op : ComparisonType)
    (hl : x.Built old c left temps) (hr : x.Built old d right temps) :
    x.Built old (.binary x.dev (.comparison op) .bool c d) (comparisonAst op left right) temps := by
  cases op with
  | distinctFrom =>
    have h := (hl.binary (.comparison .notDistinctFrom) .bool hr).unary .not
    rwa [AstUnary.apply, logicalNot_notDistinct] at h
  | _ => exact hl.binary _ _ hr

theorem runs_comparison {l r : Node V w} (op : ComparisonType) (hl : x.Runs l) (hr : x.Runs r) :
    x.Runs (.comparison op l r) := by
  intro mode temps hm
  rw [execute, Accepts]
  apply bind_lift
  intro k _
  apply Outcome.ite
  · intro hu
    have hs := strategy_of_useAst hu
    apply hl.bind_ast hs
    intro a temps₁ ha
    apply last
    apply hr.bind_ast hs
    intro b temps₂ hb
    exact finishAst_outcome mode _ ((ha.later hb.grown).comparison op (hb.earlier ha.grown))
  · intro _
    apply (hl.materialize temps).bind
    rintro - left temps₁ ⟨he₁, hleft⟩
    apply (hr.materialize temps₁).bind
    rintro - right temps₂ ⟨he₂, hright⟩
    refine (bind_lift fun a ha => ?_).iff (hleft.operands_cond hright)
    obtain ⟨-, rfl⟩ := (hleft.operands_iff hright).1 ha
    exact finishColumn_outcome mode _ _ (he₁.trans he₂)

theorem runs_between {input lower upper : Node V w} (lowerInclusive upperInclusive : Bool)
    (hi : x.Runs input) (hl : x.Runs lower) (hu : x.Runs upper) :
    x.Runs (.between input lower upper lowerInclusive upperInclusive) := by
  intro mode temps hm
  rw [execute, Accepts]
  apply bind_lift
  intro k _
  apply Outcome.ite
  · intro huse
    have hs := strategy_of_useAst huse
    apply hi.bind_ast hs
    intro a temps₁ ha
    apply hl.bind_ast hs
    intro b temps₂ hb
    apply last
    apply hu.bind_ast hs
    intro c temps₃ hc
    have ha' := (ha.later hb.grown).later hc.grown
    have hb' := (hb.earlier ha.grown).later hc.grown
    have hc' := (hc.earlier hb.grown).earlier ha.grown
    refine finishAst_outcome mode _
      ⟨ha'.grown, (ha'.fresh.append hb'.fresh a.expr).append hc'.fresh _, ?_⟩
    simp [betweenAst, read, ha'.reads, hb'.reads, hc'.reads, meaning]
  · intro huse
    obtain rfl : mode = .materialize := by
      cases mode with
      | ast => exact absurd (useAst_ast (hm rfl) k) huse
      | materialize => rfl
    apply (hi.materialize temps).bind
    rintro - ri temps₁ ⟨he₁, hri⟩
    apply (hl.materialize temps₁).bind
    rintro - rl temps₂ ⟨he₂, hrl⟩
    apply (hu.materialize temps₂).bind
    rintro - ru temps₃ ⟨he₃, hru⟩
    apply last
    apply hri.bind_view
    apply hrl.bind_operand
    apply hru.bind_operand
    exact Outcome.pure ⟨(he₁.trans he₂).trans he₃, rfl⟩

theorem Built.unaryOp {child : AstResult} (op : UnaryKind) (h : x.Built old c child temps) :
    x.Built old (unaryOpColumn op c) (unaryOpAst op child) temps := by
  cases op with
  | opIsNotNull => exact (h.unary .isNull).unary .not
  | opIsNull => exact h.unary .isNull
  | opNot | opTry => exact h.unary .not

theorem runs_unaryOp {child : Node V w} (op : UnaryKind) (h : x.Runs child) :
    x.Runs (.unaryOp op child) := by
  intro mode temps hm
  rw [execute, Accepts]
  apply bind_lift
  intro k _
  apply Outcome.ite
  · intro hu
    apply last
    apply h.bind_ast (strategy_of_useAst hu)
    intro a temps₁ ha
    exact finishAst_outcome mode _ (ha.unaryOp op)
  · intro _
    apply (h.materialize temps).bind
    rintro - result temps₁ ⟨he, hresult⟩
    apply last
    apply hresult.bind_view
    exact finishColumn_outcome mode _ _ he

theorem castOpToAst_of_supported {target : LogicalType} (h : Node.castSupported target = true) :
    castOpToAst target.id = .ok (.castTo (cudfType target)) := by
  simp only [Node.castSupported, supportedAstCastTypes, List.mem_cons, List.not_mem_nil, or_false,
    decide_eq_true_eq] at h
  rcases h with h | h | h <;>
    simp [castOpToAst, h, cudfType, getCudfType, Except.toOption]

theorem runs_cast {child : Node V w} (target : LogicalType) (h : x.Runs child) :
    x.Runs (.cast child target) := by
  intro mode temps hm
  rw [execute, Accepts]
  apply bind_lift
  intro k _
  apply Outcome.ite
  · intro hu
    rw [Bool.and_eq_true] at hu
    apply last
    apply h.bind_ast (strategy_of_useAst hu.2)
    intro a temps₁ ha
    apply bind_ok (castOpToAst_of_supported hu.1)
    exact finishAst_outcome mode _ (ha.unary (.castTo (cudfType target)))
  · intro _
    refine (bind_lift (C := fun _ => x.Accepts child .materialize ∧ x.kind child ≠ .scalar)
      fun t ht => ?_).iff (by simp)
    obtain rfl : cudfType target = t := by simp [cudfType, ht, Except.toOption]
    apply (h.materialize temps).bind
    rintro - result temps₁ ⟨he, hresult⟩
    apply last
    apply hresult.bind_view
    exact finishColumn_outcome mode _ _ he

/-! ## Conjunctions -/

variable (op : ConjunctionKind)

theorem conjunctionAst_outcome (hs : x.strategy ≠ .materialize)
    (h : ∀ child ∈ children, x.Runs child) (hb : x.Built old c output temps) :
    Outcome (x.conjunctionAst op children output) temps (x.AcceptsAll children .ast)
      (x.Built old ((x.meanings children).foldl (.binary x.dev (conjunctionOp op) .bool) c)) := by
  induction children generalizing temps c output with
  | nil =>
    rw [conjunctionAst, AcceptsAll]
    exact Outcome.pure hb
  | cons child children ih =>
    rw [conjunctionAst, AcceptsAll]
    apply (h child List.mem_cons_self).bind_ast hs
    intro a temps₁ ha
    exact ih (fun c hc => h c (List.mem_cons_of_mem child hc))
      ((hb.later ha.grown).binary (conjunctionOp op) .bool (ha.earlier hb.grown))

theorem conjunctionColumns_outcome (h : ∀ child ∈ children, x.Runs child) {output : Result V n}
    (temps : Temps V n) (hout : IsResult k v c output) :
    Outcome (x.conjunctionColumns op children output) temps
      (x.AcceptsAll children .materialize ∧
        (children = [] ∨ k ≠ .scalar ∧ ∀ child ∈ children, x.kind child ≠ .scalar))
      fun result temps' => temps.Extends temps' ∧ IsResult (if children = [] then k else .owned) v
        ((x.meanings children).foldl (.binary x.dev (conjunctionOp op) .bool) c) result := by
  induction children generalizing temps k c output with
  | nil =>
    rw [conjunctionColumns, AcceptsAll]
    exact (Outcome.pure ⟨Temps.Extends.refl temps, hout⟩).iff (by simp)
  | cons child children ih =>
    rw [conjunctionColumns, AcceptsAll]
    refine Outcome.iff (P := x.Accepts child .materialize ∧ k ≠ .scalar ∧ x.kind child ≠ .scalar ∧
      x.AcceptsAll children .materialize ∧
        (children = [] ∨ Kind.owned ≠ .scalar ∧ ∀ child ∈ children, x.kind child ≠ .scalar)) ?_ ?_
    · apply ((h child List.mem_cons_self).materialize temps).bind
      rintro - result temps₁ ⟨he, hresult⟩
      apply hout.bind_view
      apply hresult.bind_view
      refine (ih (fun c hc => h c (List.mem_cons_of_mem child hc)) temps₁ (.ofColumn v _)).mono Iff.rfl ?_
      rintro - result temps₂ ⟨he₂, hresult⟩
      refine ⟨he.trans he₂, ?_⟩
      simpa [meanings] using hresult
    · have hnil : children = [] → ∀ c ∈ children, x.kind c ≠ .scalar := by
        rintro rfl c hc
        cases hc
      simp only [List.mem_cons, forall_eq_or_imp, reduceCtorEq, false_or, ne_eq, not_false_eq_true,
        true_and]
      tauto

theorem kind_conjunction_cons (child : Node V w) (children : List (Node V w)) {k : Nat}
    (hk : (Node.conjunction op (child :: children)).cudfAstOpCount = .ok k)
    (hu : ¬ x.useAst .materialize k = true) :
    x.kind (.conjunction op (child :: children)) =
      if children = [] then x.kind child else .owned := by
  cases children with
  | nil => simp [kind, hk, hu, Except.toOption]
  | cons => simp [kind]

theorem kind_conjunction_ast (children : List (Node V w)) {k : Nat}
    (hk : (Node.conjunction op children).cudfAstOpCount = .ok k)
    (hu : x.useAst .materialize k = true) : x.kind (.conjunction op children) = .owned := by
  match children with
  | [] => simp [kind]
  | [child] => simp [kind, hk, hu, Except.toOption]
  | _ :: _ :: _ => simp [kind]

theorem runs_conjunction (h : ∀ child ∈ children, x.Runs child) :
    x.Runs (.conjunction op children) := by
  intro mode temps hm
  rw [execute, Accepts]
  apply bind_lift
  intro k hk
  cases children with
  | nil => exact Outcome.throw.iff (by simp)
  | cons child children =>
    have hrest : ∀ c ∈ children, x.Runs c := fun c hc => h c (List.mem_cons_of_mem child hc)
    have hchild : x.Runs child := h child List.mem_cons_self
    refine Outcome.iff ?_ (and_iff_right (List.cons_ne_nil child children))
    apply Outcome.ite
    · intro hu
      have hs := strategy_of_useAst hu
      rw [AcceptsAll]
      apply hchild.bind_ast hs
      intro a temps₁ ha
      apply last
      apply (conjunctionAst_outcome op hs hrest ha).bind
      intro _ b temps₂ hb
      have hfinish := finishAst_outcome mode (scalarValue (.conjunction op (child :: children))) hb
      cases mode with
      | ast => exact hfinish
      | materialize =>
        rw [kind_conjunction_ast op _ hk hu]
        exact hfinish
    · intro hu
      obtain rfl : mode = .materialize := by
        cases mode with
        | ast => exact absurd (useAst_ast (hm rfl) k) hu
        | materialize => rfl
      rw [AcceptsAll, and_assoc]
      apply (hchild.materialize temps).bind
      rintro - output temps₁ ⟨he, hout⟩
      refine (conjunctionColumns_outcome op hrest temps₁ hout).mono ?_ ?_
      · simp
      · rintro - result temps₂ ⟨he₂, hresult⟩
        refine ⟨he.trans he₂, ?_⟩
        rw [kind_conjunction_cons op child children hk hu]
        cases children with
        | nil => simpa [scalarValue, meaning, meanings] using hresult
        | cons =>
          simp only [reduceCtorEq, if_false] at hresult ⊢
          exact hresult

/-! ## IN lists -/

variable (x) in
/-- The column of an IN list whose values so far gave `output`. -/
def inListFold (test output : Column V n) (values : List (Column V n)) : Column V n :=
  values.foldl (fun output c => .binary x.dev .logicalOr .bool output
    (.binary x.dev (.comparison .equal) .bool test c)) output

theorem Built.inListStep {t : Column V n} {test comparator : AstResult}
    (ht : x.Built old t test temps) (hc : x.Built old c output temps)
    (hd : x.Built old d comparator temps) :
    x.Built old (.binary x.dev .logicalOr .bool c (.binary x.dev (.comparison .equal) .bool t d))
      (Executor.inListStep test output comparator) temps :=
  ⟨hc.grown, hc.fresh.append hd.fresh _, by
    simp [Executor.inListStep, read, ht.reads, hc.reads, hd.reads]⟩

variable {values : List (Node V w)}

theorem inListAst_outcome (hs : x.strategy ≠ .materialize) (h : ∀ value ∈ values, x.Runs value)
    {t : Column V n} {test : AstResult} (ht : x.Built old t test temps)
    (hc : x.Built old c output temps) :
    Outcome (x.inListAst test values output) temps (x.AcceptsAll values .ast)
      (x.Built old (x.inListFold t c (x.meanings values))) := by
  induction values generalizing temps c output with
  | nil =>
    rw [inListAst, AcceptsAll]
    exact Outcome.pure hc
  | cons value values ih =>
    rw [inListAst, AcceptsAll]
    apply (h value List.mem_cons_self).bind_ast hs
    intro a temps₁ ha
    exact ih (fun v hv => h v (List.mem_cons_of_mem value hv)) (ht.later ha.grown)
      ((ht.later ha.grown).inListStep (hc.later ha.grown) (ha.earlier hc.grown))

theorem inListColumns_outcome (h : ∀ value ∈ values, x.Runs value) (temps : Temps V n)
    (t c : Column V n) :
    Outcome (x.inListColumns t values c) temps
      (x.AcceptsAll values .materialize ∧ ∀ value ∈ values, x.kind value ≠ .scalar)
      fun column temps' => temps.Extends temps' ∧
        column = x.inListFold t c (x.meanings values) := by
  induction values generalizing temps c with
  | nil =>
    rw [inListColumns, AcceptsAll]
    exact (Outcome.pure ⟨Temps.Extends.refl temps, rfl⟩).iff (by simp)
  | cons value values ih =>
    rw [inListColumns, AcceptsAll]
    refine Outcome.iff (P := x.Accepts value .materialize ∧ x.kind value ≠ .scalar ∧
      x.AcceptsAll values .materialize ∧ ∀ value ∈ values, x.kind value ≠ .scalar) ?_ ?_
    · apply ((h value List.mem_cons_self).materialize temps).bind
      rintro - result temps₁ ⟨he, hresult⟩
      apply hresult.bind_view
      refine (ih (fun v hv => h v (List.mem_cons_of_mem value hv)) temps₁ _).mono Iff.rfl ?_
      rintro - column temps₂ ⟨he₂, rfl⟩
      exact ⟨he.trans he₂, rfl⟩
    · simp only [List.mem_cons, forall_eq_or_imp]
      tauto

theorem meaning_of_getConstPayload {type : CudfTypeId} {a : V}
    (h : getConstPayload type node = .ok a) (i : Fin n) : (x.meaning node).rows i = some a := by
  unfold getConstPayload at h
  cases node with
  | constant payload returnType =>
    cases payload with
    | none => cases h
    | some b =>
      simp only [Node.constant?] at h
      split at h
      · cases h
        rfl
      · cases h
  | _ => cases h

theorem contains_eq (haystack : List V) (b : V) : x.dev.contains haystack b = decide (b ∈ haystack) := by
  rw [Bool.eq_iff_iff, x.dev.contains_iff, decide_eq_true_iff]

/-- One more value, found in every row of its column, is one more element of the haystack. -/
theorem contains_or (haystack : List V) (a : V) (t c : Column V n)
    (hc : ∀ i, c.rows i = some a) :
    Column.binary x.dev .logicalOr .bool (t.contains x.dev haystack)
      (.binary x.dev (.comparison .equal) .bool t c) = t.contains x.dev (haystack ++ [a]) := by
  ext i
  · rfl
  · cases ht : t.rows i <;>
      simp [Column.binary, Column.contains, contains_eq, BinaryOperator.apply, ComparisonType.sql,
        ComparisonType.test, hc i, ht]

theorem contains_single (a : V) (t c : Column V n) (hc : ∀ i, c.rows i = some a) :
    Column.binary x.dev (.comparison .equal) .bool t c = t.contains x.dev [a] := by
  ext i
  · rfl
  · cases ht : t.rows i <;>
      simp [Column.binary, Column.contains, contains_eq, BinaryOperator.apply, ComparisonType.sql,
        ComparisonType.test, hc i, ht]

/-- **The column test of an IN over constants is the chain of comparisons.** -/
theorem inListFold_eq_contains {type : CudfTypeId} {more : List V}
    (h : List.Forall₂ (fun v a => getConstPayload type v = .ok a) values more) (t : Column V n)
    (haystack : List V) : x.inListFold t (t.contains x.dev haystack) (x.meanings values) =
      t.contains x.dev (haystack ++ more) := by
  induction h generalizing haystack with
  | nil => simp [inListFold, meanings]
  | @cons v a values more hv _ ih =>
    rw [meanings, inListFold, List.foldl_cons, contains_or _ a _ _ (meaning_of_getConstPayload hv)]
    rw [← inListFold, ih, List.append_assoc, List.singleton_append]

theorem Built.negateIf (negated : Bool) (h : x.Built old c a temps) :
    x.Built old (Executor.negateIf negated c)
      (if negated then unaryAst .not a else a) temps := by
  cases negated with
  | true => exact h.unary .not
  | false => exact h

theorem meaning_inList (probe value : Node V w) (values : List (Node V w)) (negated : Bool) :
    x.meaning (.inList probe (value :: values) negated) = Executor.negateIf negated
      (x.inListFold (x.meaning probe) (.binary x.dev (.comparison .equal) .bool (x.meaning probe)
        (x.meaning value)) (x.meanings values)) := by
  rw [meaning, meanings]
  rfl

theorem runs_inList {probe : Node V w} (negated : Bool) (hp : x.Runs probe)
    (h : ∀ value ∈ values, x.Runs value) : x.Runs (.inList probe values negated) := by
  intro mode temps hm
  rw [execute, Accepts]
  apply bind_lift
  intro k hk
  cases values with
  | nil => exact Outcome.throw.iff (by simp)
  | cons value values =>
    have hvalue : x.Runs value := h value List.mem_cons_self
    have hrest : ∀ v ∈ values, x.Runs v := fun v hv => h v (List.mem_cons_of_mem value hv)
    refine Outcome.iff ?_ (and_iff_right (List.cons_ne_nil value values))
    rw [meaning_inList]
    apply Outcome.ite
    · intro hu
      have hs := strategy_of_useAst hu
      apply hp.bind_ast hs
      intro test temps₁ ht
      rw [AcceptsAll]
      apply hvalue.bind_ast hs
      intro a temps₂ ha
      have ht' := ht.later ha.grown
      apply last
      apply (inListAst_outcome hs hrest ht' (ht'.binary _ _ (ha.earlier ht.grown))).bind
      intro _ b temps₃ hb
      exact finishAst_outcome mode _ (hb.negateIf negated)
    · intro _
      apply (hp.materialize temps).bind
      rintro - test temps₁ ⟨he₁, ht⟩
      by_cases hc : (value :: values).all (·.constant?.isSome) = true
      · rw [if_pos hc, if_pos hc]
        apply ht.bind_view
        by_cases htype : (x.meaning probe).type.id = .list ∨ (x.meaning probe).type.id = .struct
        · rw [if_pos htype]
          exact Outcome.throw.iff (by simp [htype])
        · rw [if_neg htype]
          refine (bind_lift (C := fun _ => True) fun haystack hh => ?_).iff ?_
          · obtain ⟨a, more, ha, hmore, rfl⟩ :=
              List.forall₂_cons_left_iff.1 (mapM_eq_ok_iff.1 hh)
            rw [contains_single a _ _ (meaning_of_getConstPayload ha), inListFold_eq_contains hmore]
            exact finishColumn_outcome mode _ _ he₁
          · simp only [htype, not_false_eq_true, true_and, and_true]
            exact exists_mapM_eq_ok_iff.symm
      · rw [if_neg hc, if_neg hc]
        refine Outcome.iff (P := x.Accepts value .materialize ∧ x.kind probe ≠ .scalar ∧
          x.kind value ≠ .scalar ∧ x.AcceptsAll values .materialize ∧
            ∀ v ∈ values, x.kind v ≠ .scalar) ?_ ?_
        · apply (hvalue.materialize temps₁).bind
          rintro - comparator temps₂ ⟨he₂, hcomparator⟩
          apply ht.bind_view
          apply hcomparator.bind_view
          apply last
          apply (inListColumns_outcome hrest temps₂ _ _).bind
          rintro - output temps₃ ⟨he₃, rfl⟩
          exact finishColumn_outcome mode _ _ ((he₁.trans he₂).trans he₃)
        · rw [AcceptsAll]
          simp only [List.mem_cons, forall_eq_or_imp]
          tauto

/-! ## COALESCE -/

omit [Element V] in
theorem replaceNulls_of_hasNulls (h : ¬ c.hasNulls = true) (d : Column V n) :
    c.replaceNulls d = c := by
  ext i
  · rfl
  · simp only [Column.hasNulls, decide_eq_true_eq, not_exists, Bool.not_eq_true,
      Option.isNone_eq_false_iff] at h
    obtain ⟨a, ha⟩ := Option.isSome_iff_exists.1 (h i)
    simp [Column.replaceNulls, ha]

theorem coalesceLoop_outcome (h : ∀ child ∈ children, x.Runs child) {current : Result V n}
    (temps : Temps V n) (hk : k ≠ .scalar) (hcurrent : IsResult k v c current) :
    Outcome (x.coalesceLoop children current) temps (x.AcceptsCoalesce children c)
      fun result temps' => temps.Extends temps' ∧
        IsResult (if children = [] ∨ ¬ c.hasNulls = true then k else .owned) v
          ((x.meanings children).foldl .replaceNulls c) result := by
  induction children generalizing temps k c current with
  | nil =>
    rw [coalesceLoop, AcceptsCoalesce]
    exact Outcome.pure ⟨Temps.Extends.refl temps, hcurrent⟩
  | cons child children ih =>
    rw [coalesceLoop, AcceptsCoalesce, meanings, List.foldl_cons]
    refine Outcome.iff (hcurrent.bind_view ?_) (and_iff_right hk).symm
    by_cases hn : c.hasNulls = true
    · rw [if_pos hn]
      refine Outcome.iff ?_ (forall_prop_of_true hn)
      apply ((h child List.mem_cons_self).materialize temps).bind
      rintro - result temps₁ ⟨he, hresult⟩
      apply hresult.bind_operand
      refine (ih (fun c hc => h c (List.mem_cons_of_mem child hc)) temps₁ (by decide)
        (.ofColumn v _)).mono Iff.rfl ?_
      rintro - result temps₂ ⟨he₂, hresult⟩
      refine ⟨he.trans he₂, ?_⟩
      simpa [hn] using hresult
    · -- the children that are not reached would change nothing
      rw [if_neg hn, replaceNulls_of_hasNulls hn, List.foldl_fixed' (replaceNulls_of_hasNulls hn)]
      refine (Outcome.pure ⟨Temps.Extends.refl temps, ?_⟩).iff (by simp [hn])
      simpa [hn] using hcurrent

theorem runs_coalesce {first : Node V w} {rest : List (Node V w)} (type : LogicalType)
    (hf : x.Runs first) (h : ∀ child ∈ rest, x.Runs child) :
    x.Runs (.coalesce first rest type) := by
  intro mode temps _
  rw [execute, Accepts]
  apply (hf.materialize temps).bind
  rintro - current temps₁ ⟨he, hcurrent⟩
  apply (coalesceLoop_outcome h temps₁ (by split <;> simp_all) hcurrent.columnOfScalar).bind
  rintro - result temps₂ ⟨he₂, hresult⟩
  have hkind : x.kind (.coalesce first rest type) =
      if rest = [] ∨ ¬ (x.meaning first).hasNulls = true then
        if x.kind first = .scalar then .owned else x.kind first else .owned := by
    rw [kind]
    cases x.kind first <;> simp
  rw [← hkind] at hresult
  have hne : x.kind (.coalesce first rest type) ≠ .scalar := by
    rw [kind]
    split <;> decide
  exact finishMaterialized_outcome mode _ (he.trans he₂) (hresult.of_ne_scalar hne)

/-! ## CASE -/

theorem IsResult.anyTrue_eq (h : IsResult (x.kind node) (scalarValue node) (x.meaning node) result) :
    result.anyTrue = .ok (x.raises node) := by
  unfold raises
  cases hk : x.kind node with
  | view | owned =>
    rw [hk] at h
    obtain rfl : result = _ := h
    rfl
  | scalar =>
    rw [hk] at h
    obtain ⟨rfl, -⟩ : result = _ ∧ _ := h
    rfl

variable {cases : List (Node V w × Node V w)} {arguments : List (Node V w)}

theorem caseLoop_outcome (h : ∀ c ∈ cases, x.Runs c.1 ∧ x.Runs c.2) {current : Result V n}
    (temps : Temps V n) (hcurrent : IsResult k v c current) :
    Outcome (x.caseLoop cases current) temps (x.AcceptsCases cases) fun result temps' =>
      temps.Extends temps' ∧ IsResult (if cases.all (·.2.isError) then k else .owned) v
        (x.caseMeaning cases c) result := by
  induction cases with
  | nil =>
    rw [caseLoop, AcceptsCases]
    exact Outcome.pure ⟨Temps.Extends.refl temps, hcurrent⟩
  | cons head cases ih =>
    obtain ⟨condition, branch⟩ := head
    obtain ⟨hcondition, hbranch⟩ := h (condition, branch) List.mem_cons_self
    rw [caseLoop, AcceptsCases, caseMeaning]
    apply (ih fun c hc => h c (List.mem_cons_of_mem _ hc)).bind
    rintro - current temps₁ ⟨he₁, hcurrent⟩
    apply (hcondition.materialize temps₁).bind
    rintro - mask temps₂ ⟨he₂, hmask⟩
    by_cases herror : branch.isError = true
    · rw [if_pos herror, if_pos herror, if_pos herror]
      apply bind_ok hmask.anyTrue_eq
      cases hr : x.raises condition with
      | true => exact Outcome.throw.iff (by simp)
      | false =>
        refine (Outcome.pure ⟨he₁.trans he₂, ?_⟩).iff (by simp)
        simp only [List.all_cons, herror, Bool.true_and]
        exact hcurrent
    · rw [if_neg herror, if_neg herror, if_neg herror]
      apply (hbranch.materialize temps₂).bind
      rintro - result temps₃ ⟨he₃, hresult⟩
      apply hcurrent.bind_operand
      apply hresult.bind_operand
      apply last
      apply hmask.bind_view
      refine Outcome.pure ⟨(he₁.trans he₂).trans he₃, ?_⟩
      simp only [List.all_cons, herror, Bool.false_and]
      rfl

theorem runs_caseExpr {otherwise : Node V w} (type : LogicalType)
    (h : ∀ c ∈ cases, x.Runs c.1 ∧ x.Runs c.2) (ho : x.Runs otherwise) :
    x.Runs (.caseExpr cases otherwise type) := by
  intro mode temps _
  rw [execute, Accepts]
  apply (ho.materialize temps).bind
  rintro - current temps₁ ⟨he₁, hcurrent⟩
  apply (caseLoop_outcome h temps₁ hcurrent).bind
  rintro - result temps₂ ⟨he₂, hresult⟩
  rw [meaning, scalarValue, kind]
  exact finishMaterialized_outcome mode _ (he₁.trans he₂) hresult

/-! ## Functions -/

theorem executeArgument_outcome (h : ∀ argument ∈ arguments, x.Runs argument) (i : Nat)
    (mode : Mode) (temps : Temps V n) (hm : mode = .ast → x.strategy ≠ .materialize) :
    Outcome (x.executeArgument arguments i mode) temps (x.AcceptsArgument arguments i mode)
      fun result temps' => ∃ argument, arguments[i]? = some argument ∧
        x.Post temps mode (x.kind argument) (scalarValue argument) (x.meaning argument)
          result temps' := by
  induction arguments generalizing i with
  | nil =>
    rw [executeArgument, AcceptsArgument]
    exact Outcome.throw
  | cons argument arguments ih =>
    cases i with
    | zero =>
      rw [executeArgument, AcceptsArgument]
      refine (h argument List.mem_cons_self mode temps hm).mono Iff.rfl ?_
      exact fun _ result temps' hpost => ⟨argument, rfl, hpost⟩
    | succ i =>
      rw [executeArgument, AcceptsArgument]
      exact ih (fun a ha => h a (List.mem_cons_of_mem argument ha)) i

theorem meanings_getD {i : Nat} {argument : Node V w} (h : arguments[i]? = some argument) :
    (x.meanings arguments)[i]?.getD noColumn = x.meaning argument := by
  simp [meanings_eq_map, h]

section

variable (h : ∀ argument ∈ arguments, x.Runs argument)

include h

theorem structChildren_outcome (temps : Temps V n) :
    Outcome (x.structChildren arguments) temps (x.AcceptsAll arguments .materialize)
      fun columns temps' => temps.Extends temps' ∧ columns = x.meanings arguments := by
  induction arguments generalizing temps with
  | nil =>
    rw [structChildren, AcceptsAll]
    exact Outcome.pure ⟨Temps.Extends.refl temps, rfl⟩
  | cons argument arguments ih =>
    rw [structChildren, AcceptsAll, meanings]
    apply ((h argument List.mem_cons_self).materialize temps).bind
    rintro - result temps₁ ⟨he₁, hresult⟩
    apply hresult.bind_operand
    apply last
    apply (ih (fun a ha => h a (List.mem_cons_of_mem argument ha)) temps₁).bind
    rintro - columns temps₂ ⟨he₂, rfl⟩
    exact Outcome.pure ⟨he₁.trans he₂, rfl⟩

theorem bind_argument_ast {β : Type} {f : AstResult → Exec V n β} {P : Prop}
    {R : β → Temps V n → Prop} (hs : x.strategy ≠ .materialize) (i : Nat)
    (hf : ∀ a temps', x.Built temps ((x.meanings arguments)[i]?.getD noColumn) a temps' →
      Outcome (f a) temps' P R) :
    Outcome (do let a ← (← x.executeArgument arguments i .ast).getAst; f a) temps
      (x.AcceptsArgument arguments i .ast ∧ P) R := by
  apply (executeArgument_outcome h i .ast temps fun _ => hs).bind
  rintro - result temps' ⟨argument, hargument, a, rfl, hb⟩
  rw [← meanings_getD hargument] at hb
  exact hf a temps' hb

theorem arithmetic_outcome (f : FunctionId) (out : DataType) (temps : Temps V n) :
    Outcome (do
        let left ← x.executeArgument arguments 0 .materialize
        let right ← x.executeArgument arguments 1 .materialize
        let (lhs, rhs) ← left.operands right
        pure (Column.binary x.dev (.arithmetic f) out lhs rhs)) temps
      (x.AcceptsArgument arguments 0 .materialize ∧ x.AcceptsArgument arguments 1 .materialize ∧
        ¬ (arguments[0]?.map x.kind = some .scalar ∧ arguments[1]?.map x.kind = some .scalar))
      fun column temps' => temps.Extends temps' ∧ column = .binary x.dev (.arithmetic f) out
        ((x.meanings arguments)[0]?.getD noColumn) ((x.meanings arguments)[1]?.getD noColumn) := by
  apply (executeArgument_outcome h 0 .materialize temps nofun).bind
  rintro - left temps₁ ⟨l, hl, he₁, hleft⟩
  apply (executeArgument_outcome h 1 .materialize temps₁ nofun).bind
  rintro - right temps₂ ⟨r, hr, he₂, hright⟩
  rw [hl, hr, meanings_getD hl, meanings_getD hr]
  simp only [Option.map_some, Option.some.injEq]
  refine (bind_lift fun a ha => ?_).iff (hleft.operands_cond hright)
  obtain ⟨-, rfl⟩ := (hleft.operands_iff hright).1 ha
  exact Outcome.pure ⟨he₁.trans he₂, rfl⟩

theorem struct_outcome (temps : Temps V n) :
    Outcome (do
        let columns ← x.structChildren arguments
        if columns.isEmpty then throw "vector index out of range"
        else pure (Column.makeStructs x.dev columns)) temps
      (x.AcceptsAll arguments .materialize ∧ arguments ≠ [])
      fun column temps' => temps.Extends temps' ∧
        column = .makeStructs x.dev (x.meanings arguments) := by
  apply (structChildren_outcome h temps).bind
  rintro - columns temps₁ ⟨he, rfl⟩
  cases arguments with
  | nil => exact Outcome.throw.iff (by simp)
  | cons argument arguments =>
    rw [meanings]
    exact (Outcome.pure ⟨he, rfl⟩).iff (by simp)

theorem function_outcome (f : FunctionId) (temps : Temps V n) :
    Outcome (do
        let input ← x.executeArgument arguments (inputArgument f) .materialize
        let values ← StateT.lift (constants f arguments)
        let input ← input.getColumnView
        pure (x.functionColumn f values input)) temps
      (x.AcceptsArgument arguments (inputArgument f) .materialize ∧
        (∃ values, constants f arguments = .ok values) ∧
        arguments[inputArgument f]?.map x.kind ≠ some .scalar)
      fun column temps' => temps.Extends temps' ∧
        column = x.functionColumn f ((constants f arguments).toOption.getD [])
          ((x.meanings arguments)[inputArgument f]?.getD noColumn) := by
  apply (executeArgument_outcome h (inputArgument f) .materialize temps nofun).bind
  rintro - input temps₁ ⟨argument, hargument, he, hinput⟩
  rw [hargument, meanings_getD hargument]
  refine (bind_lift (C := fun _ => x.kind argument ≠ .scalar ∧ True) fun values hv => ?_).iff
    (by simp)
  apply hinput.bind_view
  refine Outcome.pure ⟨he, ?_⟩
  simp [hv, Except.toOption]

end

theorem cudfType_of_ok {type : LogicalType} {t : DataType} (h : getCudfType type = .ok t) :
    cudfType type = t := by
  simp [cudfType, h, Except.toOption]

theorem runs_functionCall (f : FunctionId) (type : LogicalType)
    (h : ∀ argument ∈ arguments, x.Runs argument) : x.Runs (.functionCall f arguments type) := by
  intro mode temps _
  rw [execute, Accepts]
  apply bind_lift
  intro k _
  apply Outcome.ite
  · intro hu
    rw [Bool.and_eq_true] at hu
    have hf : f ∈ supportedAstFunctions := by
      have := hu.1
      simp only [Node.functionSupported, Bool.and_eq_true, decide_eq_true_eq] at this
      exact this.2
    have hs := strategy_of_useAst hu.2
    rw [meaning, if_pos hf]
    apply bind_argument_ast h hs
    intro a temps₁ ha
    apply last
    apply bind_argument_ast h hs
    intro b temps₂ hb
    exact finishAst_outcome mode _ ((ha.later hb.grown).binary _ _ (hb.earlier ha.grown))
  · intro _
    refine (bind_lift (C := fun _ => _) fun t ht => ?_).iff exists_and_right.symm
    obtain rfl := cudfType_of_ok ht
    apply last
    refine Outcome.bind (Q := fun column temps' => temps.Extends temps' ∧
      column = x.meaning (.functionCall f arguments type)) ?_ ?_
    rotate_left
    · rintro - column temps₁ ⟨he, rfl⟩
      exact finishColumn_outcome mode _ _ he
    · rw [meaning]
      by_cases hf : f ∈ supportedAstFunctions
      · rw [if_pos hf, if_pos hf, if_pos hf]
        exact arithmetic_outcome h f _ temps
      · rw [if_neg hf, if_neg hf, if_neg hf]
        by_cases hr : f = .row ∨ f = .structPack
        · rw [if_pos hr, if_pos hr, if_pos hr]
          exact struct_outcome h temps
        · rw [if_neg hr, if_neg hr, if_neg hr]
          by_cases herror : f = .error
          · rw [if_pos herror]
            exact Outcome.throw.iff (by simp [herror])
          · rw [if_neg herror]
            exact (function_outcome h f temps).iff (and_iff_right herror)

/-! ## Every tree -/

mutual

/-- **The executor returns on exactly the accepted trees, and then the column of the tree.** -/
theorem runs (x : Executor V w n) : (node : Node V w) → x.Runs node
  | .reference i type => runs_reference i type
  | .constant payload type => runs_constant payload type
  | .comparison op l r => runs_comparison op (runs x l) (runs x r)
  | .conjunction op children => runs_conjunction op (runs_all x children)
  | .between input lower upper lowerInclusive upperInclusive =>
    runs_between lowerInclusive upperInclusive (runs x input) (runs x lower) (runs x upper)
  | .caseExpr cases otherwise type => runs_caseExpr type (runs_cases x cases) (runs x otherwise)
  | .cast child target => runs_cast target (runs x child)
  | .unaryOp op child => runs_unaryOp op (runs x child)
  | .coalesce first rest type => runs_coalesce type (runs x first) (runs_all x rest)
  | .inList probe values negated => runs_inList negated (runs x probe) (runs_all x values)
  | .functionCall f arguments type => runs_functionCall f type (runs_all x arguments)

theorem runs_all (x : Executor V w n) : (nodes : List (Node V w)) → ∀ node ∈ nodes, x.Runs node
  | [] => nofun
  | node :: nodes => by
    have hnode := runs x node
    have hnodes := runs_all x nodes
    exact List.forall_mem_cons.2 ⟨hnode, hnodes⟩

theorem runs_cases (x : Executor V w n) :
    (cases : List (Node V w × Node V w)) → ∀ c ∈ cases, x.Runs c.1 ∧ x.Runs c.2
  | [] => nofun
  | (condition, branch) :: cases => by
    have hcondition := runs x condition
    have hbranch := runs x branch
    have hcases := runs_cases x cases
    exact List.forall_mem_cons.2 ⟨⟨hcondition, hbranch⟩, hcases⟩

end

/-! ## Tables -/

variable (x) in
/-- The output column of an expression: its column, with the declared type. -/
def outputColumn (node : Node V w) : Except String (Column V n) :=
  x.postProcess node (.column (x.meaning node))

theorem postProcess_eq (h : IsResult (x.kind node) (scalarValue node) (x.meaning node) result) :
    x.postProcess node result = x.outputColumn node := by
  unfold outputColumn postProcess
  cases node with
  | reference i type =>
    obtain rfl : result = .columnView _ := h
    rfl
  | _ =>
    simp only [h.operand]
    rfl

theorem executeAll_outcome (nodes : List (Node V w)) (temps : Temps V n) :
    Outcome (x.executeAll nodes) temps
      ((∀ node ∈ nodes, x.Accepts node .materialize) ∧
        ∀ node ∈ nodes, ∃ c, x.outputColumn node = .ok c)
      fun columns _ => nodes.mapM x.outputColumn = .ok columns := by
  induction nodes generalizing temps with
  | nil =>
    rw [executeAll]
    refine (Outcome.pure ?_).iff ?_
    · rfl
    · simp
  | cons node nodes ih =>
    rw [executeAll]
    refine Outcome.iff (P := x.Accepts node .materialize ∧ ∃ c, x.outputColumn node = .ok c ∧
      ((∀ node ∈ nodes, x.Accepts node .materialize) ∧
        ∀ node ∈ nodes, ∃ c, x.outputColumn node = .ok c)) ?_ ?_
    · apply ((runs x node).materialize temps).bind
      rintro - result temps₁ ⟨-, hresult⟩
      rw [postProcess_eq hresult]
      apply bind_lift
      intro c hc
      apply last
      apply (ih temps₁).bind
      intro _ columns temps₂ hcolumns
      refine Outcome.pure ?_
      rw [List.mapM_cons, hc, hcolumns]
      rfl
    · simp only [List.forall_mem_cons, exists_and_right]
      tauto

/-- **When a table of expressions is computed, and what it is.** -/
theorem executeTable_eq_ok_iff (nodes : List (Node V w)) (columns : List (Column V n)) :
    x.executeTable nodes = .ok columns ↔
      (∀ node ∈ nodes, x.Accepts node .materialize) ∧ nodes.mapM x.outputColumn = .ok columns := by
  have h := executeAll_outcome (x := x) nodes ⟨[], []⟩
  rw [← exists_mapM_eq_ok_iff] at h
  unfold executeTable
  by_cases ha : (∀ node ∈ nodes, x.Accepts node .materialize) ∧
      ∃ columns, nodes.mapM x.outputColumn = .ok columns
  · obtain ⟨cs, temps, hrun, hcs⟩ := h.1 ha
    rw [hrun, hcs]
    simp only [Except.map, Except.ok.injEq]
    exact (and_iff_right ha.1).symm
  · obtain ⟨e, he⟩ := h.2 ha
    rw [he]
    refine ⟨nofun, fun hc => absurd ⟨hc.1, columns, hc.2⟩ ha⟩

end Executor

end Sirius.Expression
