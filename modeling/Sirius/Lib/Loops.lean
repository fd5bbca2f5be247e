import Sirius.Lib.Runs

/-!
# Loops

A loop is a partial step function on its states; where the function is undefined, the loop is over.
`Ends` says that the loop is over after finitely many steps, `Reaches` which states it comes through.
-/

namespace Sirius.Lib

variable {σ τ : Type*}

def Reaches (f : σ → Option σ) : σ → σ → Prop :=
  Run (fun s (_ : Unit) => f s) fun _ _ => True

/-- The loop from `s` is over after finitely many steps. -/
def Ends (f : σ → Option σ) (s : σ) : Prop := ∃ s', Reaches f s s' ∧ f s' = none

variable {f : σ → Option σ} {g : τ → Option τ} {s s' : σ} {t : τ}

theorem Reaches.refl (s : σ) : Reaches f s s := Run.refl s

theorem Reaches.tail (h : Reaches f s s') {s'' : σ} (hstep : f s' = some s'') : Reaches f s s'' :=
  Run.tail () h trivial hstep

/-- A loop that comes through a state and ends does so from that state. -/
theorem Ends.of_reaches (hends : Ends f s) (h : Reaches f s s') : Ends f s' := by
  induction h with
  | refl => exact hends
  | @tail a b _ _ _ hstep ih =>
    obtain ⟨c, hreach, hc⟩ := ih
    refine ⟨c, ?_, hc⟩
    -- the end comes behind `a`, hence at `b` or behind it
    have hfirst : a = c ∨ Reaches f b c := by
      clear hc
      induction hreach with
      | refl => exact .inl rfl
      | @tail d e _ _ _ hde ih =>
        rcases ih with rfl | ih
        · have : b = e := Option.some.inj (hstep.symm.trans hde)
          exact .inr (this ▸ Reaches.refl b)
        · exact .inr (ih.tail hde)
    rcases hfirst with rfl | hreach
    · rw [hc] at hstep
      cases hstep
    · exact hreach

/-- A property that every step keeps and that admits a step keeps a loop running for ever. -/
theorem not_ends {P : σ → Prop} (h : P s) (hstep : ∀ a, P a → ∃ b, f a = some b ∧ P b) :
    ¬ Ends f s := by
  intro ⟨c, hreach, hc⟩
  have hP : P c := by
    apply Run.invariant hreach h
    intro a b _ ha _ hab
    obtain ⟨b', hb', hPb⟩ := hstep a ha
    rw [hb'] at hab
    cases hab
    exact hPb
  obtain ⟨b, hb, -⟩ := hstep c hP
  rw [hc] at hb
  cases hb

theorem ends_of_measure {β : Type*} [LT β] [WellFoundedLT β] (μ : σ → β)
    (h : ∀ a b, Reaches f s a → f a = some b → μ b < μ a) : Ends f s := by
  have hprogress : ∀ a, Reaches f s a → f a = none ∨
      ∃ b, Run (fun s (_ : Unit) => f s) (fun _ _ => True) a b ∧ Reaches f s b ∧ μ b < μ a := by
    intro a ha
    cases hstep : f a with
    | none => exact .inl rfl
    | some b => exact .inr ⟨b, Run.single () trivial hstep, ha.tail hstep, h a b ha hstep⟩
  obtain ⟨c, hrun, -, hc⟩ := Run.exists_of_measure (Reaches f s) (fun a => f a = none) μ hprogress
    (Reaches.refl s)
  exact ⟨c, hrun, hc⟩

/-- The steps of two loops correspond. -/
def Simulates (f : σ → Option σ) (g : τ → Option τ) (R : σ → τ → Prop) : Prop :=
  ∀ a b, R a b → (f a = none ∧ g b = none) ∨ ∃ a' b', f a = some a' ∧ g b = some b' ∧ R a' b'

namespace Simulates

variable {R : σ → τ → Prop}

theorem symm (h : Simulates f g R) : Simulates g f fun b a => R a b := by
  intro b a hR
  rcases h a b hR with ⟨ha, hb⟩ | ⟨a', b', ha, hb, hR'⟩
  · exact .inl ⟨hb, ha⟩
  · exact .inr ⟨b', a', hb, ha, hR'⟩

theorem reaches (h : Simulates f g R) (hR : R s t) (hreach : Reaches f s s') :
    ∃ t', Reaches g t t' ∧ R s' t' := by
  induction hreach with
  | refl => exact ⟨t, Reaches.refl t, hR⟩
  | tail _ _ _ hstep ih =>
    obtain ⟨t', ht, hR'⟩ := ih
    rcases h _ _ hR' with ⟨ha, -⟩ | ⟨a', b', ha, hb, hR''⟩
    · rw [ha] at hstep
      cases hstep
    · rw [ha] at hstep
      cases hstep
      exact ⟨b', ht.tail hb, hR''⟩

theorem ends (h : Simulates f g R) (hR : R s t) (hends : Ends f s) : Ends g t := by
  obtain ⟨s', hreach, hs'⟩ := hends
  obtain ⟨t', ht, hR'⟩ := h.reaches hR hreach
  rcases h _ _ hR' with ⟨-, hb⟩ | ⟨a', b', ha, -, -⟩
  · exact ⟨t', ht, hb⟩
  · rw [hs'] at ha
    cases ha

end Simulates

end Sirius.Lib
