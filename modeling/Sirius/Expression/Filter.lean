import Sirius.Expression.Refinement

/-!
# Filters and three-valued logic

`sql` evaluates a filter at a row as SQL does: AND and OR are the connectives of Kleene, BETWEEN is
an AND of two comparisons and IN an OR of equalities. The executor uses the cuDF connectives, which
are NULL as soon as an operand is. So it computes NULL at exactly the rows where some reference or
constant is NULL and not below a null test (`exposedNull`).

Where that makes no difference is said by `Safe`, which looks at the tree and at which columns are NULL
at the row, but not at values. A filter that is safe at all rows keeps the rows SQL asks for
(`select_eq_sql`).

Values are compared by cuDF as SQL does. For columns of FLOAT and DOUBLE this means that they hold no
NaN, which SQL takes to be the greatest number and cuDF to be incomparable.
-/

namespace Sirius.Expression

open List

variable {V : Type} {w n : Nat} [Element V]

/-! ## The SQL meaning -/

/-- AND of three-valued logic: FALSE wins over UNKNOWN. -/
def kleeneAnd : Option Bool → Option Bool → Option Bool
  | some false, _ | _, some false => some false
  | some true, b => b
  | none, _ => none

/-- OR of three-valued logic: TRUE wins over UNKNOWN. -/
def kleeneOr : Option Bool → Option Bool → Option Bool
  | some true, _ | _, some true => some true
  | some false, b => b
  | none, _ => none

def ConjunctionKind.kleene : ConjunctionKind → Option Bool → Option Bool → Option Bool
  | opAnd => kleeneAnd
  | opOr => kleeneOr

/-- The operand that decides a connective, whatever the other one is. -/
def ConjunctionKind.dominant : ConjunctionKind → Bool
  | opAnd => false
  | opOr => true

/-- One operand decides a chain of connectives, or all of them do. -/
theorem foldl_kleene_eq_iff (op : ConjunctionKind) (as : List (Option Bool)) (a : Option Bool) :
    (as.foldl op.kleene a = some op.dominant ↔ some op.dominant ∈ a :: as) ∧
      (as.foldl op.kleene a = some (!op.dominant) ↔ ∀ b ∈ a :: as, b = some (!op.dominant)) := by
  induction as generalizing a with
  | nil => simp [eq_comm]
  | cons b as ih =>
    have hstep : (op.kleene a b = some op.dominant ↔ a = some op.dominant ∨ b = some op.dominant) ∧
        (op.kleene a b = some (!op.dominant) ↔
          a = some (!op.dominant) ∧ b = some (!op.dominant)) := by
      rcases a with _ | _ | _ <;> rcases b with _ | _ | _ <;> cases op <;> decide
    rw [foldl_cons, (ih _).1, (ih _).2, mem_cons, forall_mem_cons, eq_comm, hstep.1, hstep.2]
    exact ⟨by simp [eq_comm, or_assoc], by simp [and_assoc]⟩

def onValues (f : Option Bool → Option Bool → Option Bool) (a b : Option V) : Option V :=
  (f (a.map truth) (b.map truth)).map ofBool

/-- NOT of three-valued logic, if asked for. -/
def negateValue (negated : Bool) (a : Option V) : Option V :=
  if negated then a.map fun v => ofBool (!truth v) else a

namespace Node

/-- The trees of filters: references, constants, comparisons, AND, OR, NOT, BETWEEN, IN and the null
tests. AND, OR and IN have something to range over. -/
inductive IsFilter : Node V w → Prop
  | reference (i : Fin (w + 1)) (type : LogicalType) : IsFilter (.reference i type)
  | constant (payload : Option V) (type : LogicalType) : IsFilter (.constant payload type)
  | comparison (op : ComparisonType) {l r : Node V w} (hl : IsFilter l) (hr : IsFilter r) :
    IsFilter (.comparison op l r)
  | conjunction (op : ConjunctionKind) {child : Node V w} {children : List (Node V w)}
    (h : ∀ c ∈ child :: children, IsFilter c) : IsFilter (.conjunction op (child :: children))
  | between {input lower upper : Node V w} (lowerInclusive upperInclusive : Bool)
    (hi : IsFilter input) (hl : IsFilter lower) (hu : IsFilter upper) :
    IsFilter (.between input lower upper lowerInclusive upperInclusive)
  | unaryOp {op : UnaryKind} (hop : op ≠ .opTry) {child : Node V w} (h : IsFilter child) :
    IsFilter (.unaryOp op child)
  | inList {probe value : Node V w} {values : List (Node V w)} (negated : Bool)
    (hp : IsFilter probe) (h : ∀ v ∈ value :: values, IsFilter v) :
    IsFilter (.inList probe (value :: values) negated)

variable (row : Fin (w + 1) → Option V)

mutual

/-- **The three-valued evaluation of a filter at a row.** -/
def sql : Node V w → Option V
  | .reference i _ => row i
  | .constant payload _ => payload
  | .comparison op l r => (op.sql (sql l) (sql r)).map ofBool
  | .conjunction op children =>
    match sqlAll children with
    | [] => none
    | a :: as => as.foldl (onValues op.kleene) a
  | .between input lower upper lowerInclusive upperInclusive =>
    onValues kleeneAnd
      ((ComparisonType.sql (if lowerInclusive then .ge else .gt) (sql input) (sql lower)).map ofBool)
      ((ComparisonType.sql (if upperInclusive then .le else .lt) (sql input) (sql upper)).map ofBool)
  | .unaryOp .opIsNull child => some (ofBool (sql child).isNone)
  | .unaryOp .opIsNotNull child => some (ofBool (sql child).isSome)
  | .unaryOp _ child => negateValue true (sql child)
  | .inList probe values negated =>
    negateValue negated <| match sqlAll values with
      | [] => none
      | a :: as => as.foldl
          (fun out a => onValues kleeneOr out ((ComparisonType.equal.sql (sql probe) a).map ofBool))
          ((ComparisonType.equal.sql (sql probe) a).map ofBool)
  | _ => none

def sqlAll : List (Node V w) → List (Option V)
  | [] => []
  | node :: nodes => sql node :: sqlAll nodes

end

theorem sqlAll_eq (nodes : List (Node V w)) : sqlAll row nodes = nodes.map (sql row) := by
  induction nodes with
  | nil => rfl
  | cons node nodes ih => rw [sqlAll, ih, map_cons]

theorem sql_conjunction (op : ConjunctionKind) (child : Node V w) (children : List (Node V w)) :
    sql row (.conjunction op (child :: children)) =
      (children.map (sql row)).foldl (onValues op.kleene) (sql row child) := by
  rw [sql, sqlAll, sqlAll_eq]

/-- BETWEEN as an AND. -/
def betweenTree (input lower upper : Node V w) (lowerInclusive upperInclusive : Bool) : Node V w :=
  .conjunction .opAnd [.comparison (if lowerInclusive then .ge else .gt) input lower,
    .comparison (if upperInclusive then .le else .lt) input upper]

/-- IN as an OR. -/
def inTree (probe : Node V w) (values : List (Node V w)) : Node V w :=
  .conjunction .opOr (values.map (.comparison .equal probe))

theorem sql_between (input lower upper : Node V w) (lowerInclusive upperInclusive : Bool) :
    sql row (.between input lower upper lowerInclusive upperInclusive) =
      sql row (betweenTree input lower upper lowerInclusive upperInclusive) := by
  rw [sql, betweenTree, sql_conjunction, sql]
  rfl

theorem sql_inList (probe value : Node V w) (values : List (Node V w)) (negated : Bool) :
    sql row (.inList probe (value :: values) negated) =
      negateValue negated (sql row (inTree probe (value :: values))) := by
  rw [sql, sqlAll, sqlAll_eq, inTree, map_cons, sql_conjunction, map_map, foldl_map, sql]
  show negateValue negated (foldl _ _ (values.map (sql row))) = _
  rw [foldl_map]
  rfl

theorem sql_not (child : Node V w) :
    sql row (.unaryOp .opNot child) = negateValue true (sql row child) := by
  rw [sql] <;> nofun

/-- The filter is a boolean expression over columns of the given types. -/
def isBoolean (schema : Fin (w + 1) → DataType) : Node V w → Bool
  | .reference i _ => (schema i).id == .bool8
  | .constant _ type => type.id == .boolean
  | .conjunction _ [child] => isBoolean schema child
  | _ => true

/-! ## Where NULLs make no difference

`null` says which columns are NULL at a row. -/

variable (null : Fin (w + 1) → Bool)

mutual

/-- **Some reference or constant that is not below a null test is NULL.** The null tests are IS [NOT]
NULL and IS [NOT] DISTINCT FROM. -/
def exposedNull : Node V w → Bool
  | .reference i _ => null i
  | .constant payload _ => payload.isNone
  | .comparison .distinctFrom _ _ | .comparison .notDistinctFrom _ _ => false
  | .comparison _ l r => exposedNull l || exposedNull r
  | .conjunction _ children => anyExposed children
  | .between input lower upper _ _ => exposedNull input || exposedNull lower || exposedNull upper
  | .unaryOp .opIsNull _ | .unaryOp .opIsNotNull _ => false
  | .unaryOp _ child => exposedNull child
  | .inList probe values _ => exposedNull probe || anyExposed values
  | _ => false

def anyExposed : List (Node V w) → Bool
  | [] => false
  | node :: nodes => exposedNull node || anyExposed nodes

end

omit [Element V] in
theorem anyExposed_eq (nodes : List (Node V w)) :
    anyExposed null nodes = nodes.any (exposedNull null) := by
  induction nodes with
  | nil => rfl
  | cons node nodes ih => rw [anyExposed, ih, any_cons]

/-- A NULL is exposed in all operands or in none. -/
def Uniform (nodes : List (Node V w)) : Prop :=
  (∀ node ∈ nodes, exposedNull null node = true) ∨ ∀ node ∈ nodes, exposedNull null node = false

/-- **SQL does not have the truth value `b` where the executor has NULL**, for every choice of values,
and otherwise both have the same value. An exposed NULL in one operand of an AND is enough to keep it
from being TRUE, and in one operand of an OR from being FALSE. For the other truth value a NULL must be
exposed in all operands or in none. Operands of comparisons and of null tests have to be safe for both
truth values. -/
inductive Safe : Bool → Node V w → Prop
  | reference (b : Bool) (i : Fin (w + 1)) (type : LogicalType) : Safe b (.reference i type)
  | constant (b : Bool) (payload : Option V) (type : LogicalType) : Safe b (.constant payload type)
  | comparison (b : Bool) (op : ComparisonType) {l r : Node V w} (hl : ∀ b, Safe b l)
    (hr : ∀ b, Safe b r) : Safe b (.comparison op l r)
  | every {b : Bool} (op : ConjunctionKind) {children : List (Node V w)}
    (h : ∀ c ∈ children, Safe b c) (hu : Uniform null children) : Safe b (.conjunction op children)
  | one {b : Bool} {op : ConjunctionKind} (hb : b = !op.dominant) {child : Node V w}
    {children : List (Node V w)} (hc : child ∈ children) (he : exposedNull null child = true)
    (h : Safe b child) : Safe b (.conjunction op children)
  | between {b : Bool} {input lower upper : Node V w} {lowerInclusive upperInclusive : Bool}
    (h : Safe b (betweenTree input lower upper lowerInclusive upperInclusive)) :
    Safe b (.between input lower upper lowerInclusive upperInclusive)
  | not {b : Bool} {child : Node V w} (h : Safe (!b) child) : Safe b (.unaryOp .opNot child)
  | nullTest (b : Bool) {op : UnaryKind} (hop : op ≠ .opNot) {child : Node V w}
    (h : ∀ b, Safe b child) : Safe b (.unaryOp op child)
  | inList {b : Bool} {probe : Node V w} {values : List (Node V w)} {negated : Bool}
    (h : Safe (negated ^^ b) (inTree probe values)) : Safe b (.inList probe values negated)

omit [Element V] in
theorem IsFilter.betweenTree {input lower upper : Node V w} (lowerInclusive upperInclusive : Bool)
    (hi : input.IsFilter) (hl : lower.IsFilter) (hu : upper.IsFilter) :
    (betweenTree input lower upper lowerInclusive upperInclusive).IsFilter :=
  .conjunction .opAnd (by simp [IsFilter.comparison _ hi hl, IsFilter.comparison _ hi hu])

omit [Element V] in
theorem IsFilter.inTree {probe value : Node V w} {values : List (Node V w)} (hp : probe.IsFilter)
    (h : ∀ v ∈ value :: values, v.IsFilter) : (inTree probe (value :: values)).IsFilter :=
  .conjunction .opOr ((forall_mem_map (l := value :: values)).2 fun v hv => .comparison .equal hp (h v hv))

end Node

namespace Executor

open Node

variable {x : Executor V w n} {node : Node V w} {i : Fin n}

/-! ## The connectives of cuDF and of SQL -/

theorem rows_foldl_binary (op : BinaryOperator) (out : DataType) (cs : List (Column V n))
    (c : Column V n) (i : Fin n) : (cs.foldl (.binary x.dev op out) c).rows i =
      (cs.map (·.rows i)).foldl (op.apply x.dev out) (c.rows i) := by
  rw [foldl_map]
  exact (foldl_hom (fun c : Column V n => c.rows i) fun _ _ => rfl).symm

theorem rows_inListFold (test output : Column V n) (cs : List (Column V n)) (i : Fin n) :
    (x.inListFold test output cs).rows i = (cs.map (·.rows i)).foldl
      (fun out a => BinaryOperator.logicalOr.apply x.dev .bool out
        ((BinaryOperator.comparison .equal).apply x.dev .bool (test.rows i) a))
      (output.rows i) := by
  rw [foldl_map]
  exact (foldl_hom (fun c : Column V n => c.rows i) fun _ _ => rfl).symm

theorem connective_eq_none_iff (dev : Cudf V) (op : ConjunctionKind) (a b : Option V) :
    (conjunctionOp op).apply dev .bool a b = none ↔ a = none ∨ b = none := by
  cases op <;> exact Option.map₂_eq_none_iff

/-- **The connectives of cuDF propagate NULL.** -/
theorem foldl_connective_eq_none_iff (dev : Cudf V) (op : ConjunctionKind) (as : List (Option V))
    (a : Option V) : as.foldl ((conjunctionOp op).apply dev .bool) a = none ↔ none ∈ a :: as := by
  induction as generalizing a with
  | nil => simp [eq_comm]
  | cons b as ih =>
    rw [foldl_cons, ih, mem_cons, eq_comm, connective_eq_none_iff]
    simp [eq_comm, or_assoc]

/-- Without a NULL both kinds of connectives agree. -/
theorem foldl_kleene_eq_connective (dev : Cudf V) (op : ConjunctionKind) (as : List (Option V))
    (a : Option V) (h : none ∉ a :: as) :
    as.foldl (onValues op.kleene) a = as.foldl ((conjunctionOp op).apply dev .bool) a := by
  induction as generalizing a with
  | nil => rfl
  | cons b as ih =>
    obtain ⟨p, rfl⟩ := Option.ne_none_iff_exists'.1 fun ha : a = none => h (ha ▸ mem_cons_self)
    obtain ⟨q, rfl⟩ := Option.ne_none_iff_exists'.1 fun hb : b = none =>
      h (hb ▸ mem_cons_of_mem _ mem_cons_self)
    have hstep : onValues op.kleene (some p) (some q) =
        (conjunctionOp op).apply dev .bool (some p) (some q) := by
      cases op <;> cases hp : truth p <;> cases hq : truth q <;>
        simp [onValues, ConjunctionKind.kleene, kleeneAnd, kleeneOr, conjunctionOp,
          BinaryOperator.apply, hp, hq]
    rw [foldl_cons, foldl_cons, hstep]
    refine ih _ fun hmem => ?_
    rcases mem_cons.1 hmem with hstart | hrest
    · simpa using (connective_eq_none_iff dev op _ _).1 hstart.symm
    · exact h (mem_cons_of_mem _ (mem_cons_of_mem _ hrest))

theorem truth_sql_conjunction (row : Fin (w + 1) → Option V) (op : ConjunctionKind) (child : Node V w)
    (children : List (Node V w)) :
    ((Node.conjunction op (child :: children)).sql row).map truth =
      (children.map fun c => (c.sql row).map truth).foldl op.kleene ((child.sql row).map truth) := by
  rw [sql_conjunction, foldl_map, foldl_map]
  refine (foldl_hom (Option.map truth) fun a c => ?_).symm
  rw [onValues, Option.map_map]
  cases op.kleene (a.map truth) ((c.sql row).map truth) <;> simp

theorem truth_eq_dominant_iff (row : Fin (w + 1) → Option V) (op : ConjunctionKind) (child : Node V w)
    (children : List (Node V w)) :
    ((Node.conjunction op (child :: children)).sql row).map truth = some op.dominant ↔
      ∃ c ∈ child :: children, (c.sql row).map truth = some op.dominant := by
  rw [truth_sql_conjunction, (foldl_kleene_eq_iff ..).1]
  simp [eq_comm]

theorem truth_eq_not_dominant_iff (row : Fin (w + 1) → Option V) (op : ConjunctionKind)
    (child : Node V w) (children : List (Node V w)) :
    ((Node.conjunction op (child :: children)).sql row).map truth = some (!op.dominant) ↔
      ∀ c ∈ child :: children, (c.sql row).map truth = some (!op.dominant) := by
  rw [truth_sql_conjunction, (foldl_kleene_eq_iff ..).2]
  simp

theorem truth_negateValue (negated : Bool) (a : Option V) :
    (negateValue negated a).map truth = (a.map truth).map (negated ^^ ·) := by
  cases negated <;> cases a <;> simp [negateValue]

/-! ## What the executor computes at a row -/

/-- The columns that are NULL at a row. -/
def nulls (input : Table V w n) (i : Fin n) (c : Fin (w + 1)) : Bool := (input.row i c).isNone

theorem rows_conjunction (op : ConjunctionKind) (child : Node V w) (children : List (Node V w)) :
    (x.meaning (.conjunction op (child :: children))).rows i =
      (children.map fun c => (x.meaning c).rows i).foldl ((conjunctionOp op).apply x.dev .bool)
        ((x.meaning child).rows i) := by
  rw [meaning, meanings, meanings_eq_map]
  exact (rows_foldl_binary ..).trans (by rw [map_map]; rfl)

theorem rows_between_eq (input lower upper : Node V w) (lowerInclusive upperInclusive : Bool) :
    (x.meaning (.between input lower upper lowerInclusive upperInclusive)).rows i =
      (x.meaning (betweenTree input lower upper lowerInclusive upperInclusive)).rows i := by
  rw [betweenTree, rows_conjunction, meaning, meaning]
  simp only [map_cons, map_nil, foldl_cons, foldl_nil, meaning]
  rfl

theorem rows_inList (probe value : Node V w) (values : List (Node V w)) (negated : Bool) :
    (x.meaning (.inList probe (value :: values) negated)).rows i =
      negateValue negated ((x.meaning (inTree probe (value :: values))).rows i) := by
  have hfold := rows_inListFold (x := x) (x.meaning probe)
    (.binary x.dev (.comparison .equal) .bool (x.meaning probe) (x.meaning value))
    (x.meanings values) i
  rw [meanings_eq_map, map_map, foldl_map] at hfold
  rw [meaning_inList, meanings_eq_map, inTree, map_cons, rows_conjunction, map_map, foldl_map]
  simp only [Function.comp_apply, meaning]
  cases negated with
  | false => exact hfold
  | true =>
    show ((x.inListFold _ _ _).rows i).map _ = _
    rw [hfold]
    rfl

variable (x i) in
/-- **The executor computes NULL at a row** if and only if a NULL is exposed there. -/
theorem rows_eq_none_iff (h : node.IsFilter) :
    (x.meaning node).rows i = none ↔ node.exposedNull (nulls x.input i) = true := by
  have hcomparison : ∀ (op : ComparisonType) {l r : Node V w},
      ((x.meaning l).rows i = none ↔ l.exposedNull (nulls x.input i) = true) →
      ((x.meaning r).rows i = none ↔ r.exposedNull (nulls x.input i) = true) →
      ((x.meaning (.comparison op l r)).rows i = none ↔
        (Node.comparison op l r).exposedNull (nulls x.input i) = true) := by
    intro op l r hl hr
    rw [meaning]
    refine Option.map_eq_none_iff.trans ?_
    cases op <;> simp [ComparisonType.sql, exposedNull, hl, hr]
  have hconjunction : ∀ (op : ConjunctionKind) (child : Node V w) (children : List (Node V w)),
      (∀ c ∈ child :: children,
        ((x.meaning c).rows i = none ↔ c.exposedNull (nulls x.input i) = true)) →
      ((x.meaning (.conjunction op (child :: children))).rows i = none ↔
        (child :: children).any (·.exposedNull (nulls x.input i)) = true) := by
    intro op child children ih
    rw [rows_conjunction, foldl_connective_eq_none_iff, any_eq_true,
      ← map_cons (f := fun c => (x.meaning c).rows i), mem_map]
    exact exists_congr fun c => and_congr_right fun hc => ih c hc
  induction h with
  | reference c type => rw [meaning, exposedNull, nulls, Option.isNone_iff_eq_none, Table.row]
  | constant payload type => rw [meaning, exposedNull, Option.isNone_iff_eq_none]
  | comparison op _ _ ihl ihr => exact hcomparison op ihl ihr
  | @conjunction op child children _ ih =>
    rw [hconjunction op child children ih, exposedNull, anyExposed_eq]
  | @between input lower upper lowerInclusive upperInclusive _ _ _ ihi ihl ihu =>
    rw [rows_between_eq, betweenTree, hconjunction _ _ _ (by simp [hcomparison, ihi, ihl, ihu])]
    cases lowerInclusive <;> cases upperInclusive <;> simp [exposedNull] <;> grind
  | @unaryOp op hop child _ ih =>
    rw [meaning]
    cases op with
    | opTry => exact absurd rfl hop
    | opNot => simpa [unaryOpColumn, Column.logicalNot, exposedNull] using ih
    | opIsNull => simp [unaryOpColumn, Column.isNull, exposedNull]
    | opIsNotNull => simp [unaryOpColumn, Column.isNull, Column.logicalNot, exposedNull]
  | @inList probe value values negated _ _ ihp ih =>
    have hnegate (a : Option V) : negateValue negated a = none ↔ a = none := by
      cases negated <;> simp [negateValue]
    rw [rows_inList, hnegate]
    refine (hconjunction .opOr (.comparison .equal probe value) (values.map (.comparison .equal probe))
      ((forall_mem_map (l := value :: values)).2 fun v hv => hcomparison .equal ihp (ih v hv))).trans ?_
    rw [exposedNull, anyExposed_eq]
    simp only [any_cons, any_map, Function.comp_def, exposedNull, Bool.or_eq_true, any_eq_true]
    constructor
    · rintro ((hp | hv) | ⟨v, hv, hp | hv'⟩)
      exacts [.inl hp, .inr (.inl hv), .inl hp, .inr (.inr ⟨v, hv, hv'⟩)]
    · rintro (hp | hv | ⟨v, hv, hv'⟩)
      exacts [.inl (.inl hp), .inl (.inr hv), .inr ⟨v, hv, .inr hv'⟩]

/-- The executor has what SQL has, or NULL where SQL does not have the truth value. -/
def Agrees (b : Bool) (sql computed : Option V) : Prop :=
  sql = computed ∨ computed = none ∧ sql.map truth ≠ some b

theorem eq_of_agrees {a c : Option V} (h : ∀ b, Agrees b a c) : a = c := by
  rcases h true with heq | ⟨rfl, htrue⟩
  · exact heq
  · rcases h false with heq | ⟨-, hfalse⟩
    · exact heq
    · cases a with
      | none => rfl
      | some v => cases hv : truth v <;> simp [hv] at htrue hfalse

theorem Agrees.negateValue {b : Bool} (negated : Bool) {a c : Option V} (h : Agrees (negated ^^ b) a c) :
    Agrees b (negateValue negated a) (negateValue negated c) := by
  refine h.imp (congrArg _) fun ⟨hnone, hne⟩ => ⟨?_, fun hb => hne ?_⟩
  · rw [hnone]
    cases negated <;> rfl
  · rw [truth_negateValue] at hb
    obtain ⟨d, hd, rfl⟩ := Option.map_eq_some_iff.1 hb
    rw [hd]
    cases negated <;> simp

/-- **Where a filter is safe**, the executor agrees with SQL. -/
theorem agrees_of_safe {b : Bool} (h : node.IsFilter) (hs : node.Safe (nulls x.input i) b) :
    Agrees b (node.sql (x.input.row i)) ((x.meaning node).rows i) := by
  induction hs with
  | reference | constant => exact .inl rfl
  | comparison b op _ _ ihl ihr =>
    cases h with
    | comparison _ hl hr =>
      refine .inl ?_
      rw [sql, eq_of_agrees fun b => ihl b hl, eq_of_agrees fun b => ihr b hr, meaning]
      rfl
  | @every b op children _ hu ih =>
    cases h with
    | @conjunction _ child children h =>
      rcases hu with hu | hu
      · -- a NULL in every operand, and none of them has the truth value
        have hne : ∀ c ∈ child :: children, (c.sql (x.input.row i)).map truth ≠ some b := by
          intro c hc
          rcases ih c hc (h c hc) with heq | ⟨-, hne⟩
          · rw [heq, (rows_eq_none_iff x i (h c hc)).2 (hu c hc)]
            exact (Option.some_ne_none b).symm
          · exact hne
        refine .inr ⟨(rows_eq_none_iff x i (.conjunction op h)).2 ?_, ?_⟩
        · rw [exposedNull, anyExposed, hu child mem_cons_self, Bool.true_or]
        · by_cases hb : b = op.dominant
          · rw [hb, Ne, truth_eq_dominant_iff, ← hb]
            rintro ⟨c, hc, htruth⟩
            exact hne c hc htruth
          · obtain rfl : b = !op.dominant := Bool.eq_not_of_ne hb
            rw [Ne, truth_eq_not_dominant_iff]
            exact fun hall => hne child mem_cons_self (hall child mem_cons_self)
      · -- no NULL in any operand
        refine .inl ?_
        have heq : ∀ c ∈ child :: children, c.sql (x.input.row i) = (x.meaning c).rows i := by
          intro c hc
          refine (ih c hc (h c hc)).resolve_right fun hnone => ?_
          rw [rows_eq_none_iff x i (h c hc), hu c hc] at hnone
          cases hnone.1
        rw [sql_conjunction, rows_conjunction, heq child mem_cons_self,
          map_congr_left fun c hc => heq c (mem_cons_of_mem _ hc)]
        refine foldl_kleene_eq_connective x.dev op _ _ fun hmem => ?_
        obtain ⟨c, hc, hnone⟩ : ∃ c ∈ child :: children, (x.meaning c).rows i = none := by
          simpa [eq_comm] using hmem
        simp [rows_eq_none_iff x i (h c hc), hu c hc] at hnone
  | @one b op hb c children hc he _ ih =>
    cases h with
    | @conjunction _ child children h =>
      refine .inr ⟨(rows_eq_none_iff x i (.conjunction op h)).2 ?_, ?_⟩
      · rw [exposedNull, anyExposed_eq]
        exact any_eq_true.2 ⟨c, hc, he⟩
      · rw [hb, Ne, truth_eq_not_dominant_iff, ← hb]
        intro hall
        rcases ih (h c hc) with heq | ⟨-, hne⟩
        · simpa [heq, (rows_eq_none_iff x i (h c hc)).2 he] using hall c hc
        · exact hne (hall c hc)
  | between _ ih =>
    cases h with
    | between _ _ hi hl hu =>
      rw [sql_between, rows_between_eq]
      exact ih (.betweenTree _ _ hi hl hu)
  | not _ ih =>
    cases h with
    | unaryOp hop h =>
      rw [sql_not, meaning]
      exact Agrees.negateValue true (by simpa using ih h)
  | @nullTest b op hop child _ ih =>
    cases h with
    | unaryOp hop' h =>
      refine .inl ?_
      have hchild := eq_of_agrees fun b => ih b h
      rw [meaning]
      cases op with
      | opTry => exact absurd rfl hop'
      | opNot => exact absurd rfl hop
      | opIsNull =>
        rw [sql, hchild]
        rfl
      | opIsNotNull =>
        rw [sql, hchild]
        cases hrow : (x.meaning child).rows i <;>
          simp [unaryOpColumn, Column.isNull, Column.logicalNot, hrow]
  | inList _ ih =>
    cases h with
    | inList _ hp h =>
      rw [sql_inList, rows_inList]
      exact (ih (.inTree hp h)).negateValue _

/-! ## Selection -/

theorem type_foldl_binary (op : BinaryOperator) (cs : List (Column V n)) {c : Column V n}
    (hc : c.type = .bool) : (cs.foldl (.binary x.dev op .bool) c).type = .bool := by
  induction cs generalizing c with
  | nil => exact hc
  | cons d cs ih => exact ih rfl

theorem type_inListFold (test : Column V n) (cs : List (Column V n)) {c : Column V n}
    (hc : c.type = .bool) : (x.inListFold test c cs).type = .bool := by
  induction cs generalizing c with
  | nil => exact hc
  | cons d cs ih => exact ih rfl

theorem getCudfType_boolean {type : LogicalType} (h : type.id = .boolean) :
    getCudfType type = .ok .bool := by
  simp [getCudfType, h]

theorem type_meaning (h : node.IsFilter) (hb : node.isBoolean fun c => (x.input c).type) :
    (x.meaning node).type.id = .bool8 := by
  induction h with
  | reference c type => simpa [isBoolean, meaning] using hb
  | constant payload type =>
    have ht : type.id = .boolean := by simpa [isBoolean] using hb
    rw [meaning, cudfType, getCudfType_boolean ht]
    rfl
  | comparison op _ _ _ _ => rfl
  | @conjunction op child children _ ih =>
    cases children with
    | nil =>
      rw [isBoolean] at hb
      exact ih child mem_cons_self hb
    | cons next children =>
      rw [meaning, meanings, meanings]
      exact congrArg DataType.id (type_foldl_binary (conjunctionOp op) (x.meanings children) rfl)
  | between _ _ _ _ _ _ _ _ => rfl
  | @unaryOp op hop child _ _ => cases op <;> rfl
  | @inList probe value values negated _ _ _ _ =>
    rw [meaning_inList]
    cases negated with
    | true => rfl
    | false => exact congrArg DataType.id (type_inListFold _ _ rfl)

theorem outputColumn_of_isBoolean (h : node.IsFilter)
    (hb : node.isBoolean fun c => (x.input c).type) :
    x.outputColumn node = .ok (x.meaning node) := by
  have htype := type_meaning h hb
  have hpost : getCudfType node.returnType = .ok .bool →
      (do
        let returnType ← getCudfType node.returnType
        let column ← (Result.column (x.meaning node)).operand
        if column.type.id = returnType.id then return column
        else if column.type.isFixedWidth && returnType.isFixedWidth then
          return column.cast x.dev returnType
        else throw "[gpu_expression_executor] Unsupported type conversion") =
      (Except.ok (x.meaning node) : Except String (Column V n)) := by
    intro hreturn
    rw [hreturn]
    exact if_pos htype
  cases h with
  | reference c type => rfl
  | constant payload type =>
    exact hpost (getCudfType_boolean (by simpa [isBoolean, returnType] using hb))
  | comparison | conjunction | between | unaryOp | inList => exact hpost rfl

def keptRows (input : Table V w n) (p : (Fin (w + 1) → Option V) → Bool) :
    List (Fin (w + 1) → Option V) :=
  ((List.finRange n).filter fun i => p (input.row i)).map input.row

theorem select_of_accepts (h : node.IsFilter) (hb : node.isBoolean fun c => (x.input c).type)
    (ha : x.Accepts node .materialize) :
    x.select node = .ok (((List.finRange n).filter (x.meaning node).isTrue).map x.input.row) := by
  have hrun : x.executeTable [node] = .ok [x.meaning node] := by
    rw [executeTable_eq_ok_iff]
    refine ⟨by simpa using ha, ?_⟩
    rw [mapM_cons, outputColumn_of_isBoolean h hb]
    rfl
  rw [select, hrun]
  exact if_pos (type_meaning h hb)

theorem select_of_not_accepts (ha : ¬ x.Accepts node .materialize)
    (rows : List (Fin (w + 1) → Option V)) : x.select node ≠ .ok rows := by
  cases hrun : x.executeTable [node] with
  | ok columns =>
    have := ((executeTable_eq_ok_iff _ _).1 hrun).1 node (mem_singleton_self node)
    exact absurd this ha
  | error e =>
    rw [select, hrun]
    nofun

theorem isTrue_of_safe (h : node.IsFilter) (hs : node.Safe (nulls x.input i) true) :
    (x.meaning node).isTrue i = (node.sql (x.input.row i)).any truth := by
  rw [Column.isTrue]
  rcases agrees_of_safe h hs with heq | ⟨hnone, hne⟩
  · rw [heq]
  · rw [hnone]
    cases hsql : node.sql (x.input.row i) with
    | none => rfl
    | some v => simpa [hsql] using hne

/-- **Filters and SQL.** A filter that the executor accepts, and that is safe with the NULLs of each row,
keeps the rows for which SQL finds it TRUE. A filter that is not accepted fails. -/
theorem select_eq_sql (x : Executor V w n) {node : Node V w} (h : node.IsFilter)
    (hb : node.isBoolean fun c => (x.input c).type) :
    (x.Accepts node .materialize → (∀ i, node.Safe (nulls x.input i) true) →
      x.select node = .ok (keptRows x.input fun row => (node.sql row).any truth)) ∧
    (¬ x.Accepts node .materialize → ∀ rows, x.select node ≠ .ok rows) := by
  refine ⟨fun ha hs => ?_, fun ha => select_of_not_accepts ha⟩
  have hmask : (x.meaning node).isTrue = fun i => (node.sql (x.input.row i)).any truth :=
    funext fun i => isTrue_of_safe h (hs i)
  rw [select_of_accepts h hb ha, hmask, keptRows]

/-- A table with two BOOLEAN columns and one row, NULL and TRUE, under the default strategy. -/
def nullOrTrue : Executor Datum 1 1 where
  dev := Datum.cudf
  strategy := .materialize
  minAstSize := 2
  input c := ⟨.bool, fun _ => if c = 0 then none else some (ofBool true)⟩

/-- `a OR b`. -/
def eitherColumn : Node Datum 1 :=
  .conjunction .opOr [.reference 0 (.make .boolean), .reference 1 (.make .boolean)]

/-- **`NULL OR TRUE` is TRUE, but its row is dropped.** -/
theorem nullOrTrue_drops_row : eitherColumn.IsFilter ∧
    (eitherColumn.isBoolean fun c => (nullOrTrue.input c).type) = true ∧
    nullOrTrue.select eitherColumn = .ok [] ∧
    keptRows nullOrTrue.input (fun row => (eitherColumn.sql row).any truth) =
      [nullOrTrue.input.row 0] := by
  refine ⟨.conjunction .opOr ?_, rfl, rfl, rfl⟩
  rintro c (_ | ⟨_, _ | ⟨_, hc⟩⟩)
  · exact .reference 0 _
  · exact .reference 1 _
  · cases hc

/-- `b IS NOT NULL AND b` keeps the TRUE row of the same table. -/
theorem nullOrTrue_keeps_row :
    nullOrTrue.select (.conjunction .opAnd
        [.unaryOp .opIsNotNull (.reference 1 (.make .boolean)), .reference 1 (.make .boolean)]) =
      .ok [nullOrTrue.input.row 0] := by
  have hfilter : (Node.conjunction .opAnd [.unaryOp .opIsNotNull (.reference 1 (.make .boolean)),
      .reference 1 (.make .boolean)] : Node Datum 1).IsFilter := by
    apply Node.IsFilter.conjunction
    rintro c (_ | ⟨_, _ | ⟨_, hc⟩⟩)
    · exact .unaryOp (by decide) (.reference 1 _)
    · exact .reference 1 _
    · cases hc
  refine ((select_eq_sql nullOrTrue hfilter rfl).1 ?_ fun i => ?_).trans rfl
  · refine ⟨3, rfl, by simp, ?_⟩
    simp [Accepts, AcceptsAll, kind, Node.cudfAstOpCount, useAst, nullOrTrue, bind, Except.bind,
      pure, Except.pure]
  · refine .every .opAnd ?_ (.inr (by decide +revert))
    rintro c (_ | ⟨_, _ | ⟨_, hc⟩⟩)
    · exact .nullTest true (by decide) fun b => .reference b _ _
    · exact .reference true _ _
    · cases hc

end Executor

end Sirius.Expression
