import Mathlib.Logic.Basic

/-!
# Programs with an error exit and undefined behaviour

A program takes a state and ends with a value, at its error exit, or with a fault: an access out of
bounds, or a loop that has used up its fuel. `Ends` states how a run ends; a run that ends does not
fault.
-/

namespace Umicat.Base

variable {σ α β : Type}

inductive Outcome (σ α : Type)
  | ok (a : α) (s : σ)
  | fail (s : σ)
  | fault
deriving Repr, DecidableEq

def Program (σ α : Type) := σ → Outcome σ α

namespace Program

/-- Goes on with what the first program returns; the other two ends are kept. -/
def andThen (m : Program σ α) (f : α → Program σ β) : Program σ β := fun s =>
  match m s with
  | .ok a s => f a s
  | .fail s => .fail s
  | .fault => .fault

instance instMonad : Monad (Program σ) where
  pure a := fun s => .ok a s
  bind := andThen

def get : Program σ σ := fun s => .ok s s

def modify (f : σ → σ) : Program σ Unit := fun s => .ok () (f s)

def fail : Program σ α := fun s => .fail s

def fault : Program σ α := fun _ => .fault

/-- What stands behind a label that a failed program jumps to. -/
def onFail (m : Program σ α) (f : σ → σ) : Program σ α := fun s =>
  match m s with
  | .ok a s => .ok a s
  | .fail s => .fail (f s)
  | .fault => .fault

/-! ## Runs -/

@[simp] theorem pure_apply (a : α) (s : σ) : (pure a : Program σ α) s = .ok a s := rfl

@[simp] theorem modify_apply (f : σ → σ) (s : σ) : modify f s = .ok () (f s) := rfl

@[simp] theorem get_bind (f : σ → Program σ β) (s : σ) : (get >>= f) s = f s s := rfl

@[simp] theorem modify_bind (g : σ → σ) (f : Unit → Program σ β) (s : σ) :
    (modify g >>= f) s = f () (g s) := rfl

theorem bind_ok {m : Program σ α} {f : α → Program σ β} {s s' : σ} {a : α} (h : m s = .ok a s') :
    (m >>= f) s = f a s' := by
  change andThen m f s = f a s'
  simp only [andThen, h]

theorem onFail_ok {m : Program σ α} {f : σ → σ} {s s' : σ} {a : α} (h : m s = .ok a s') :
    onFail m f s = .ok a s' := by
  simp only [onFail, h]

/-- Two composed runs whose parts agree where they are reached. -/
theorem bind_eq_bind {m m' : Program σ α} {f f' : α → Program σ β} {s : σ} (h : m s = m' s)
    (hf : ∀ a s', m' s = .ok a s' → f a s' = f' a s') : (m >>= f) s = (m' >>= f') s := by
  change andThen m f s = andThen m' f' s
  cases hm : m' s with
  | ok a s' => simp only [andThen, h, hm, hf a s' hm]
  | fail s' => simp only [andThen, h, hm]
  | fault => simp only [andThen, h, hm]

theorem onFail_congr {m m' : Program σ α} {f : σ → σ} {s : σ} (h : m s = m' s) :
    onFail m f s = onFail m' f s := by
  simp only [onFail, h]

theorem andThen_assoc {γ : Type} (m : Program σ α) (f : α → Program σ β) (g : β → Program σ γ) :
    m >>= f >>= g = m >>= fun a => f a >>= g := by
  funext s
  change andThen (andThen m f) g s = andThen m (fun a => andThen (f a) g) s
  cases h : m s with
  | ok a s' => simp only [andThen, h]
  | fail s' => simp only [andThen, h]
  | fault => simp only [andThen, h]

/-- A composed run that returns is two runs that do. -/
theorem of_bind_ok {m : Program σ α} {f : α → Program σ β} {s s'' : σ} {b : β}
    (h : (m >>= f) s = .ok b s'') : ∃ a s', m s = .ok a s' ∧ f a s' = .ok b s'' := by
  change andThen m f s = .ok b s'' at h
  unfold andThen at h
  split at h
  · next a s' hm => exact ⟨a, s', hm, h⟩
  · cases h
  · cases h

theorem of_onFail_ok {m : Program σ α} {f : σ → σ} {s s' : σ} {a : α}
    (h : onFail m f s = .ok a s') : m s = .ok a s' := by
  unfold onFail at h
  split at h
  · next hm => rw [hm, h]
  · cases h
  · cases h

end Program

/-! ## How a run ends -/

/-- A run returns with `Q` or fails with `E`, and never faults. -/
def Outcome.Ends (Q : α → σ → Prop) (E : σ → Prop) : Outcome σ α → Prop
  | .ok a s => Q a s
  | .fail s => E s
  | .fault => False

namespace Outcome

variable {Q Q' : α → σ → Prop} {R : β → σ → Prop} {E F : σ → Prop}

theorem Ends.mono {o : Outcome σ α} (h : o.Ends Q E) (hQ : ∀ a s, Q a s → Q' a s)
    (hE : ∀ s, E s → F s) : o.Ends Q' F := by
  cases o with
  | ok a s => exact hQ a s h
  | fail s => exact hE s h
  | fault => exact h

theorem Ends.ne_fault {o : Outcome σ α} (h : o.Ends Q E) : o ≠ .fault := by
  rintro rfl
  exact h

theorem Ends.of_ok {o : Outcome σ α} {a : α} {s : σ} (h : o.Ends Q E) (ho : o = .ok a s) :
    Q a s := by
  subst ho
  exact h

theorem Ends.of_fail {o : Outcome σ α} {s : σ} (h : o.Ends Q E) (ho : o = .fail s) : E s := by
  subst ho
  exact h

theorem Ends.bind {m : Program σ α} {f : α → Program σ β} {s : σ} (h : (m s).Ends Q E)
    (hf : ∀ a s', Q a s' → (f a s').Ends R E) : ((m >>= f) s).Ends R E := by
  change (Program.andThen m f s).Ends R E
  unfold Program.andThen
  cases hm : m s with
  | ok a s' => exact hf a s' (h.of_ok hm)
  | fail s' => exact h.of_fail hm
  | fault => exact h.ne_fault hm

theorem Ends.onFail {m : Program σ α} {f : σ → σ} {s : σ} (h : (m s).Ends Q F)
    (hf : ∀ s', F s' → E (f s')) : (Program.onFail m f s).Ends Q E := by
  unfold Program.onFail
  cases hm : m s with
  | ok a s' => exact h.of_ok hm
  | fail s' => exact hf s' (h.of_fail hm)
  | fault => exact h.ne_fault hm

end Outcome

end Umicat.Base
