import Sirius.Lib.Fallible

/-!
# Programs over a store of slots

A program here is a computation with a state and exceptions. `Outcome m s P Q` says exactly when it
returns: from the state `s` the program `m` returns if `P` holds, then with a value and a state that
satisfy `Q`, and raises an exception if `P` does not hold. The rules below follow the shape of the
program, so the condition of a program is the conjunction of the conditions of its parts.

A store of slots is a list of optional values. It grows at its end, and a slot that is no longer
needed is emptied in place. `old <+: new` says that all slots of `old` are still as they were.
-/

namespace Sirius.Lib

open List

/-! ## Exact outcomes -/

section Outcome

variable {σ ε α β : Type} {m : StateT σ (Except ε) α} {f : α → StateT σ (Except ε) β} {s : σ}
  {P P' : Prop} {Q Q' : α → σ → Prop} {R : β → σ → Prop}

/-- **Exact outcome.** From `s` the program returns if and only if `P` holds, and what it returns
satisfies `Q`. -/
def Outcome (m : StateT σ (Except ε) α) (s : σ) (P : Prop) (Q : α → σ → Prop) : Prop :=
  (P → ∃ a s', m s = .ok (a, s') ∧ Q a s') ∧ (¬P → ∃ e, m s = .error e)

theorem Outcome.pure {a : α} (h : Q a s) :
    Outcome (Pure.pure a : StateT σ (Except ε) α) s True Q :=
  ⟨fun _ => ⟨a, s, rfl, h⟩, fun h => absurd trivial h⟩

theorem Outcome.throw {e : ε} : Outcome (MonadExcept.throw e : StateT σ (Except ε) α) s False Q :=
  ⟨False.elim, fun _ => ⟨e, rfl⟩⟩

/-- **Sequence.** Both parts have to return. -/
theorem Outcome.bind (hm : Outcome m s P Q)
    (hf : P → ∀ a s', Q a s' → Outcome (f a) s' P' R) : Outcome (m >>= f) s (P ∧ P') R := by
  constructor
  · rintro ⟨hP, hP'⟩
    obtain ⟨a, s', hrun, hQ⟩ := hm.1 hP
    obtain ⟨b, t, hrun', hR⟩ := (hf hP a s' hQ).1 hP'
    refine ⟨b, t, ?_, hR⟩
    show Except.bind (m s) (fun r => f r.1 r.2) = _
    rw [hrun]
    exact hrun'
  · intro hn
    show ∃ e, Except.bind (m s) (fun r => f r.1 r.2) = _
    by_cases hP : P
    · obtain ⟨a, s', hrun, hQ⟩ := hm.1 hP
      obtain ⟨e, he⟩ := (hf hP a s' hQ).2 fun h => hn ⟨hP, h⟩
      exact ⟨e, by rw [hrun]; exact he⟩
    · obtain ⟨e, he⟩ := hm.2 hP
      exact ⟨e, by rw [he]; rfl⟩

theorem Outcome.mono (h : Outcome m s P Q) (hP : P' ↔ P) (hQ : P → ∀ a s', Q a s' → Q' a s') :
    Outcome m s P' Q' := by
  constructor
  · intro hP'
    obtain ⟨a, s', hrun, h'⟩ := h.1 (hP.1 hP')
    exact ⟨a, s', hrun, hQ (hP.1 hP') a s' h'⟩
  · exact fun hn => h.2 fun hp => hn (hP.2 hp)

theorem Outcome.iff (h : Outcome m s P Q) (hP : P' ↔ P) : Outcome m s P' Q :=
  h.mono hP fun _ _ _ h => h

/-- A last step that cannot raise an exception adds nothing to the condition. -/
theorem Outcome.last (h : Outcome m s (P ∧ True) Q) : Outcome m s P Q :=
  h.iff (by simp)

/-- **Case split.** -/
theorem Outcome.ite {c : Prop} [Decidable c] {m' : StateT σ (Except ε) α}
    (ht : c → Outcome m s P Q) (he : ¬c → Outcome m' s P' Q) :
    Outcome (if c then m else m') s (if c then P else P') Q := by
  by_cases h : c
  · simpa [h] using ht h
  · simpa [h] using he h

theorem Outcome.bind_lift {y : Except ε α} {C : α → Prop}
    (h : ∀ a, y = .ok a → Outcome (f a) s (C a) R) :
    Outcome (StateT.lift y >>= f) s (∃ a, y = .ok a ∧ C a) R := by
  cases y with
  | ok a =>
    constructor
    · rintro ⟨b, hb, hC⟩
      cases hb
      exact (h a rfl).1 hC
    · exact fun hn => (h a rfl).2 fun hC => hn ⟨a, rfl, hC⟩
  | error e =>
    constructor
    · rintro ⟨b, hb, -⟩
      cases hb
    · exact fun _ => ⟨e, rfl⟩

theorem Outcome.bind_ok {y : Except ε α} {a : α} (hy : y = .ok a) (h : Outcome (f a) s P' R) :
    Outcome (StateT.lift y >>= f) s P' R := by
  subst hy
  exact h

end Outcome

/-! ## Slots -/

section Slots

variable {α : Type} {old new : List (Option α)}

def release (slots : List (Option α)) (positions : List Nat) : List (Option α) :=
  positions.foldl (fun slots i => slots.set i none) slots

def content (slots : List (Option α)) (i : Nat) : Option α :=
  slots[i]?.join

theorem content_of_prefix {i : Nat} {a : α} (h : old <+: new) (ha : content old i = some a) :
    content new i = some a := by
  obtain ⟨rest, rfl⟩ := h
  have hi : i < old.length := by
    by_contra hi
    simp [content, getElem?_eq_none (Nat.le_of_not_lt hi)] at ha
  rwa [content, getElem?_append_left hi]

@[simp] theorem content_concat_length (slots : List (Option α)) (a : α) :
    content (slots ++ [some a]) slots.length = some a := by
  simp [content]

/-- **Emptying slots that were added later leaves the earlier ones alone.** -/
theorem prefix_release (h : old <+: new) (positions : List Nat)
    (hp : ∀ i ∈ positions, old.length ≤ i) : old <+: release new positions := by
  induction positions generalizing new with
  | nil => exact h
  | cons i positions ih =>
    apply ih
    · obtain ⟨rest, rfl⟩ := h
      have hi : old.length ≤ i := hp i mem_cons_self
      show old <+: (old ++ rest).set i none
      rw [set_append_right _ _ hi]
      exact prefix_append _ _
    · exact fun j hj => hp j (mem_cons_of_mem i hj)

end Slots

end Sirius.Lib
