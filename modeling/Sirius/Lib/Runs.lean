import Mathlib.Order.WellFounded

/-!
# Runs of a labelled transition system

A system is given by a partial step function `step : σ → ι → Option σ`. `Run step ok s s'` is a
run from `s` to `s'` all of whose steps meet the side condition `ok`, which looks at the state
before the step and at the label. `Run step (fun _ _ => True)` is plain reachability.
-/

namespace Sirius.Lib

universe u v

variable {σ : Type u} {ι : Type v}

/-- Runs whose steps all satisfy `ok`. -/
inductive Run (step : σ → ι → Option σ) (ok : σ → ι → Prop) : σ → σ → Prop
  | refl (s : σ) : Run step ok s s
  | tail {s s' s'' : σ} (l : ι) : Run step ok s s' → ok s' l → step s' l = some s'' →
      Run step ok s s''

namespace Run

variable {step : σ → ι → Option σ} {ok : σ → ι → Prop} {s s' s'' : σ}

/-- **Invariant rule.** What every admitted step preserves holds along the whole run. -/
theorem invariant {I : σ → Prop} (h : Run step ok s s') (h0 : I s)
    (hstep : ∀ {a b : σ} {l : ι}, I a → ok a l → step a l = some b → I b) : I s' := by
  induction h with
  | refl => exact h0
  | tail l _ hok hl ih => exact hstep ih hok hl

/-- **Frame rule.** A relation that every step from an `I`-state keeps to the start of the run
holds between its ends. -/
theorem frame {I : σ → Prop} {R : σ → σ → Prop} (h : Run step ok s s') (h0 : I s)
    (hstep : ∀ {a b : σ} {l : ι}, I a → ok a l → step a l = some b → I b) (hrefl : R s s)
    (hR : ∀ {a b : σ} {l : ι}, I a → ok a l → step a l = some b → R s a → R s b) : R s s' := by
  induction h with
  | refl => exact hrefl
  | tail l hrun hok hl ih => exact hR (hrun.invariant h0 hstep) hok hl ih

theorem trans (h : Run step ok s s') (h' : Run step ok s' s'') : Run step ok s s'' := by
  induction h' with
  | refl => exact h
  | tail l _ hok hl ih => exact ih.tail l hok hl

theorem mono {ok' : σ → ι → Prop} (h : Run step ok s s') (himp : ∀ a l, ok a l → ok' a l) :
    Run step ok' s s' := by
  induction h with
  | refl => exact .refl _
  | tail l _ hok hl ih => exact ih.tail l (himp _ _ hok) hl

/-- **Progress rule.** If from every `I`-state that does not meet the goal `G` a run leads to an
`I`-state of smaller measure, then a run leads to the goal. -/
theorem exists_of_measure {β : Type*} [LT β] [WellFoundedLT β] (I G : σ → Prop) (μ : σ → β)
    (h : ∀ a, I a → G a ∨ ∃ b, Run step ok a b ∧ I b ∧ μ b < μ a) (h0 : I s) :
    ∃ s', Run step ok s s' ∧ I s' ∧ G s' := by
  induction hμ : μ s using WellFoundedLT.induction generalizing s with
  | ind m ih =>
    rcases h s h0 with hG | ⟨b, hrun, hb, hlt⟩
    · exact ⟨s, .refl s, h0, hG⟩
    · obtain ⟨s', hrun', hI, hG⟩ := ih _ (hμ ▸ hlt) hb rfl
      exact ⟨s', hrun.trans hrun', hI, hG⟩

theorem single (l : ι) (hok : ok s l) (hl : step s l = some s') : Run step ok s s' :=
  (Run.refl s).tail l hok hl

end Run

def runLabels (step : σ → ι → Option σ) : σ → List ι → Option σ
  | s, [] => some s
  | s, l :: ls => (step s l).bind fun s' => runLabels step s' ls

/-- `step`, restricted to the choices that pass the check `ok`. -/
def guarded (step : σ → ι → Option σ) (ok : σ → ι → Bool) (s : σ) (l : ι) : Option σ :=
  if ok s l then step s l else none

theorem Run.of_runLabels {step : σ → ι → Option σ} {ok : σ → ι → Bool} {s s' : σ} {ls : List ι}
    (h : runLabels (guarded step ok) s ls = some s') :
    Run step (fun a l => ok a l = true) s s' := by
  induction ls generalizing s with
  | nil =>
    obtain rfl : s = s' := Option.some.inj h
    exact .refl _
  | cons l ls ih =>
    rw [runLabels] at h
    obtain ⟨a, hl, ha⟩ := Option.bind_eq_some_iff.mp h
    unfold guarded at hl
    split at hl
    next hok =>
      exact (Run.single l hok hl).trans (ih ha)
    · cases hl

/-- **Executing a run.** A list of checked labels that ends in a state with property `p`. -/
theorem Run.exists_of_runLabels {step : σ → ι → Option σ} {ok : σ → ι → Bool} {s : σ}
    (ls : List ι) {p : σ → Prop} [DecidablePred p]
    (h : (runLabels (guarded step ok) s ls).any (fun s' => decide (p s')) = true) :
    ∃ s', Run step (fun a l => ok a l = true) s s' ∧ p s' := by
  cases hs' : runLabels (guarded step ok) s ls with
  | none =>
    rw [hs'] at h
    cases h
  | some s' =>
    rw [hs', Option.any_some] at h
    exact ⟨s', Run.of_runLabels hs', of_decide_eq_true h⟩

end Sirius.Lib
