/-!
# Runs of a state machine

A property of steps speaks of the state before a step and of the step. `Along` says that it holds
wherever a run passes.
-/

namespace Umicat.Base

variable {σ ε : Type} {step : σ → ε → σ} {P Q : σ → ε → Prop} {I : σ → Prop}

def Along (step : σ → ε → σ) (P : σ → ε → Prop) : σ → List ε → Prop
  | _, [] => True
  | s, e :: es => P s e ∧ Along step P (step s e) es

instance instDecidableAlong [∀ s e, Decidable (P s e)] :
    (s : σ) → (es : List ε) → Decidable (Along step P s es)
  | _, [] => isTrue trivial
  | s, e :: es =>
      have := instDecidableAlong (step s e) es
      inferInstanceAs (Decidable (P s e ∧ Along step P (step s e) es))

theorem along_append {s : σ} {es fs : List ε} :
    Along step P s (es ++ fs) ↔ Along step P s es ∧ Along step P (es.foldl step s) fs := by
  induction es generalizing s with
  | nil => simp [Along]
  | cons e es ih => simp [Along, ih, and_assoc]

/-- An invariant that every step with `P` keeps and that gives `Q` turns a run along `P` into a run
along `Q`. -/
theorem Along.of_invariant (hkeep : ∀ s e, I s → P s e → I (step s e))
    (hgive : ∀ s e, I s → P s e → Q s e) {s : σ} {es : List ε} (hs : I s) (h : Along step P s es) :
    Along step Q s es := by
  induction es generalizing s with
  | nil => trivial
  | cons e es ih => exact ⟨hgive s e hs h.1, ih (hkeep s e hs h.1) h.2⟩

/-- An invariant that every step with `P` keeps holds behind a run along `P`. -/
theorem Along.invariant (hkeep : ∀ s e, I s → P s e → I (step s e)) {s : σ} {es : List ε} (hs : I s)
    (h : Along step P s es) : I (es.foldl step s) := by
  induction es generalizing s with
  | nil => exact hs
  | cons e es ih => exact ih (hkeep s e hs h.1) h.2

theorem Along.iff_of_invariant (hkeep : ∀ s e, I s → P s e → I (step s e))
    (hiff : ∀ s e, I s → (P s e ↔ Q s e)) {s : σ} {es : List ε} (hs : I s) :
    Along step P s es ↔ Along step Q s es :=
  ⟨fun h => h.of_invariant hkeep (fun s e hi hp => (hiff s e hi).mp hp) hs,
    fun h => h.of_invariant (fun s e hi hq => hkeep s e hi ((hiff s e hi).mpr hq))
      (fun s e hi hq => (hiff s e hi).mpr hq) hs⟩

/-- An invariant that the steps of a run keep holds behind the run. -/
theorem invariant_foldlM {step : σ → ε → Option σ} {es : List ε}
    (hkeep : ∀ s e s', e ∈ es → I s → step s e = some s' → I s') {s s' : σ} (hs : I s)
    (h : es.foldlM step s = some s') : I s' := by
  induction es generalizing s with
  | nil =>
      cases h
      exact hs
  | cons e es ih =>
      rw [List.foldlM_cons] at h
      obtain ⟨t, ht, hrest⟩ := Option.bind_eq_some_iff.mp h
      exact ih (fun s e s' he => hkeep s e s' (List.mem_cons_of_mem _ he))
        (hkeep s e t List.mem_cons_self hs ht) hrest

end Umicat.Base
