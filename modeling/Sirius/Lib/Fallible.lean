import Mathlib.Data.List.Forall2
import Mathlib.Data.List.Induction

/-!
# Computations that throw or are undefined

A C++ function returns, throws an exception, or runs into undefined behaviour. `Throws x` says that
`x` ends with an exception, `Defined x` that it does not run into undefined behaviour. A defined
computation throws exactly if it does not return. `Ensures x Q` adds a postcondition, with a rule for
each construct.
-/

namespace Sirius.Lib

open List

/-- An exception with its message, or a step that the language leaves undefined. -/
inductive Failure where
  | exception (message : String)
  | undefined
  deriving DecidableEq, Repr

variable {α β ε : Type} {f : α → Except ε β} {xs : List α} {ys : List β}

theorem bind_eq_ok_iff {x : Except ε α} {b : β} :
    (x >>= f) = .ok b ↔ ∃ a, x = .ok a ∧ f a = .ok b := by
  cases x with
  | error e =>
    constructor
    · rintro ⟨⟩
    · rintro ⟨a, ⟨⟩, -⟩
  | ok a =>
    constructor
    · exact fun h => ⟨a, rfl, h⟩
    · rintro ⟨a', ⟨⟩, h⟩
      exact h

/-- A check followed by something else returns if both do. -/
theorem seq_eq_ok_iff {x : Except ε Unit} {y : Except ε β} {b : β} :
    (x >>= fun _ => y) = .ok b ↔ x = .ok () ∧ y = .ok b := by
  rw [bind_eq_ok_iff]
  exact ⟨fun ⟨_, hx, hy⟩ => ⟨hx, hy⟩, fun ⟨hx, hy⟩ => ⟨_, hx, hy⟩⟩

theorem forM_eq_ok_iff {f : α → Except ε Unit} : xs.forM f = .ok () ↔ ∀ x ∈ xs, f x = .ok () := by
  induction xs with
  | nil => simp [List.forM, pure, Except.pure]
  | cons x xs ih =>
    rw [List.forall_mem_cons, ← ih, ← seq_eq_ok_iff]
    rfl

theorem mapM_eq_some_iff {f : α → Option β} :
    xs.mapM f = some ys ↔ List.Forall₂ (fun x y => f x = some y) xs ys := by
  induction xs generalizing ys with
  | nil => simp [eq_comm]
  | cons x xs ih =>
    rw [mapM_cons, forall₂_cons_left_iff]
    simp only [Option.bind_eq_bind, Option.bind_eq_some_iff, ih]
    constructor
    · rintro ⟨y, hy, zs, hzs, ⟨⟩⟩
      exact ⟨y, zs, hy, hzs, rfl⟩
    · rintro ⟨y, zs, hy, hzs, rfl⟩
      exact ⟨y, hy, zs, hzs, rfl⟩

theorem forall₂_getElem? {R : α → β → Prop} (h : List.Forall₂ R xs ys) {i : Nat} {y : β}
    (hy : ys[i]? = some y) : ∃ x, xs[i]? = some x ∧ R x y := by
  obtain ⟨hi, rfl⟩ := List.getElem?_eq_some_iff.1 hy
  have hi' : i < xs.length := h.length_eq ▸ hi
  exact ⟨xs[i], getElem?_eq_getElem hi', h.get hi' hi⟩

theorem exists_of_mem_forall₂ {R : α → β → Prop} (h : List.Forall₂ R xs ys) {y : β} (hy : y ∈ ys) :
    ∃ x ∈ xs, R x y := by
  obtain ⟨i, hi⟩ := mem_iff_getElem?.1 hy
  obtain ⟨x, hx, hR⟩ := forall₂_getElem? h hi
  exact ⟨x, mem_of_getElem? hx, hR⟩

theorem exists_of_mem_mapM {f : α → Option β} (h : xs.mapM f = some ys) {y : β} (hy : y ∈ ys) :
    ∃ x ∈ xs, f x = some y :=
  exists_of_mem_forall₂ (mapM_eq_some_iff.1 h) hy

theorem foldlM_rec {P : List α → β → Prop} {f : β → α → Except ε β} {b b' : β}
    (h : xs.foldlM f b = .ok b') (hnil : P [] b)
    (hstep : ∀ done x b b', x ∈ xs → P done b → f b x = .ok b' → P (done ++ [x]) b') : P xs b' := by
  induction xs using reverseRecOn generalizing b' with
  | nil =>
    cases h
    exact hnil
  | append_singleton done x ih =>
    rw [foldlM_append, bind_eq_ok_iff] at h
    obtain ⟨_, hdone, h⟩ := h
    rw [foldlM_cons, bind_eq_ok_iff] at h
    obtain ⟨_, hx, ⟨⟩⟩ := h
    exact hstep _ _ _ _ (by simp)
      (ih hdone fun _ _ _ _ hx => hstep _ _ _ _ (mem_append_left _ hx)) hx

theorem mapM_eq_ok_iff : xs.mapM f = .ok ys ↔ List.Forall₂ (fun x y => f x = .ok y) xs ys := by
  induction xs generalizing ys with
  | nil => simp [pure, Except.pure, eq_comm]
  | cons x xs ih =>
    rw [mapM_cons, forall₂_cons_left_iff, bind_eq_ok_iff]
    simp only [bind_eq_ok_iff, ih]
    constructor
    · rintro ⟨y, hy, zs, hzs, ⟨⟩⟩
      exact ⟨y, zs, hy, hzs, rfl⟩
    · rintro ⟨y, zs, hy, hzs, rfl⟩
      exact ⟨y, hy, zs, hzs, rfl⟩

theorem exists_mapM_eq_ok_iff : (∃ ys, xs.mapM f = .ok ys) ↔ ∀ x ∈ xs, ∃ y, f x = .ok y := by
  simp only [mapM_eq_ok_iff]
  induction xs with
  | nil => simp
  | cons x xs ih => simp [forall₂_cons_left_iff, ← ih]

theorem mapM_eq_ok_iff_forall {P : α → Prop} {g : α → β}
    (h : ∀ x ∈ xs, ∀ y, f x = .ok y ↔ P x ∧ g x = y) :
    xs.mapM f = .ok ys ↔ (∀ x ∈ xs, P x) ∧ xs.map g = ys := by
  rw [mapM_eq_ok_iff]
  induction xs generalizing ys with
  | nil => simp [eq_comm]
  | cons x xs ih =>
    simp only [forall₂_cons_left_iff, h x (by simp), ih fun x hx => h x (.tail _ hx),
      forall_mem_cons, map_cons]
    constructor
    · rintro ⟨_, _, ⟨hx, rfl⟩, ⟨hxs, rfl⟩, rfl⟩
      exact ⟨⟨hx, hxs⟩, rfl⟩
    · rintro ⟨⟨hx, hxs⟩, rfl⟩
      exact ⟨_, _, ⟨hx, rfl⟩, ⟨hxs, rfl⟩, rfl⟩

theorem mapM_eq_ok {g : α → β} (h : ∀ x ∈ xs, f x = .ok (g x)) : xs.mapM f = .ok (xs.map g) := by
  rw [mapM_eq_ok_iff, forall₂_map_right_iff, forall₂_same]
  exact h

theorem mapM_congr {g : α → Except ε β} (h : ∀ x ∈ xs, f x = g x) : xs.mapM f = xs.mapM g := by
  induction xs with
  | nil => rfl
  | cons x xs ih =>
    rw [mapM_cons, mapM_cons, h x (by simp), ih fun y hy => h y (.tail _ hy)]

/-- A traversal of blocks, numbered throughout, is a traversal of each block. -/
theorem mapM_flatMap_zipIdx {γ : Type} {f : γ → List α} {g : α × Nat → Except ε β}
    {g' : γ → α × Nat → Except ε β} {xs : List γ} {n : Nat}
    (h : ∀ before x after, xs = before ++ x :: after → ∀ a j, (f x)[j]? = some a →
      g (a, n + (before.flatMap f).length + j) = g' x (a, j)) :
    ((xs.flatMap f).zipIdx n).mapM g =
      (xs.mapM fun x => (f x).zipIdx.mapM (g' x)).map flatten := by
  induction xs generalizing n with
  | nil => rfl
  | cons x xs ih =>
    have hx : ((f x).zipIdx n).mapM g = (f x).zipIdx.mapM (g' x) := by
      rw [zipIdx_eq_map_add, mapM_map]
      refine mapM_congr fun ⟨a, j⟩ ha => ?_
      simpa using h [] x xs rfl a j (mk_mem_zipIdx_iff_getElem?.1 ha)
    have hxs := ih (n := n + (f x).length) fun before y after heq a j ha => by
      have := h (x :: before) y after (by rw [heq, cons_append]) a j ha
      rwa [flatMap_cons, length_append, ← Nat.add_assoc n] at this
    rw [flatMap_cons, zipIdx_append, mapM_append, hx, hxs, mapM_cons]
    cases (f x).zipIdx.mapM (g' x) with
    | error e => rfl
    | ok ys => cases xs.mapM fun x => (f x).zipIdx.mapM (g' x) <;> rfl

def Throws (x : Except Failure α) : Prop := ∃ message, x = .error (.exception message)

/-- The computation does not run into undefined behaviour. -/
def Defined (x : Except Failure α) : Prop := x ≠ .error .undefined

variable {x : Except Failure α} {f : α → Except Failure β}

@[simp]
theorem throws_ok {a : α} : ¬Throws (.ok a : Except Failure α) := fun ⟨_, h⟩ => nomatch h

@[simp]
theorem throws_exception {m : String} : Throws (.error (.exception m) : Except Failure α) :=
  ⟨m, rfl⟩

@[simp]
theorem defined_ok {a : α} : Defined (.ok a : Except Failure α) := nofun

@[simp]
theorem defined_exception {m : String} : Defined (.error (.exception m) : Except Failure α) := nofun

theorem Defined.throws_iff (h : Defined x) : Throws x ↔ ¬∃ a, x = .ok a := by
  match x, h with
  | .ok a, _ => simp
  | .error (.exception m), _ => simp
  | .error .undefined, h => exact absurd rfl h

theorem Defined.bind (hx : Defined x) (hf : ∀ a, x = .ok a → Defined (f a)) :
    Defined (x >>= f) := by
  cases x with
  | error e => exact fun h => hx (by injection h with h; rw [h])
  | ok a => exact hf a rfl

theorem Defined.mapM {l : List α} (h : ∀ a ∈ l, Defined (f a)) : Defined (l.mapM f) := by
  induction l with
  | nil => exact defined_ok
  | cons a l ih =>
    rw [mapM_cons]
    refine (h a (by simp)).bind fun b _ => (ih fun a ha => h a (by simp [ha])).bind fun bs _ => ?_
    exact defined_ok

variable {Q : α → Prop}

/-- The computation is defined, and what it returns satisfies `Q`. -/
def Ensures (x : Except Failure α) (Q : α → Prop) : Prop := Defined x ∧ ∀ a, x = .ok a → Q a

theorem ensures_ok {a : α} (h : Q a) : Ensures (.ok a) Q := by
  refine ⟨defined_ok, fun b hb => ?_⟩
  cases hb
  exact h

theorem ensures_exception {m : String} : Ensures (.error (.exception m)) Q :=
  ⟨defined_exception, fun _ h => by cases h⟩

theorem Ensures.mono {R : α → Prop} (hx : Ensures x Q) (h : ∀ a, Q a → R a) : Ensures x R :=
  ⟨hx.1, fun a ha => h a (hx.2 a ha)⟩

theorem Ensures.bind {R : β → Prop} (hx : Ensures x Q) (hf : ∀ a, Q a → Ensures (f a) R) :
    Ensures (x >>= f) R := by
  refine ⟨hx.1.bind fun a ha => (hf a (hx.2 a ha)).1, fun b hb => ?_⟩
  obtain ⟨a, ha, hb⟩ := bind_eq_ok_iff.1 hb
  exact (hf a (hx.2 a ha)).2 b hb

theorem ensures_mapM {l : List α} {R : β → Prop} (h : ∀ a ∈ l, Ensures (f a) R) :
    Ensures (l.mapM f) fun bs => ∀ b ∈ bs, R b := by
  refine ⟨Defined.mapM fun a ha => (h a ha).1, fun bs hbs b hb => ?_⟩
  obtain ⟨a, ha, hab⟩ := exists_of_mem_forall₂ (mapM_eq_ok_iff.1 hbs) hb
  exact (h a ha).2 b hab

end Sirius.Lib
