import Mathlib.Data.List.Basic

/-!
# Critical sections

Threads that share a memory and a spin lock. A section is a list of accesses, each to the memory and to
the registers of the thread, and between any two of them the other threads go on. Behind the unlock of
a section the memory is as if all its accesses had been made at once.
-/

namespace Umicat.Base

variable {σ κ ο ρ : Type}

/-- Where a thread is: outside of the sections at a place of its own, in front of section `o`, or in it
behind its first `k` accesses. -/
inductive Place (κ ο ρ : Type)
  | here (k : κ)
  | spinning (o : ο)
  | inside (o : ο) (k : Nat) (regs : ρ)
deriving Repr, DecidableEq

/-- The registers at the start of each section, and its accesses. -/
structure Sections (σ ο ρ : Type) where
  start : ο → ρ
  code : ο → List (σ × ρ → σ × ρ)

/-- The first `k` accesses of section `o` on the memory `m`. -/
def Sections.exec (c : Sections σ ο ρ) (o : ο) (k : Nat) (m : σ) : σ × ρ :=
  ((c.code o).take k).foldl (fun x access => access x) (m, c.start o)

/-- A whole section. -/
def Sections.run (c : Sections σ ο ρ) (o : ο) (m : σ) : σ × ρ := c.exec o (c.code o).length m

structure Guarded (σ κ ο ρ : Type) where
  shared : σ
  locked : Bool
  threads : List (Place κ ο ρ)
deriving Repr, DecidableEq

/-! ## Steps -/

def Guarded.goto (g : Guarded σ κ ο ρ) (t : Nat) (p : Place κ ο ρ) : Guarded σ κ ο ρ :=
  { g with threads := g.threads.set t p }

def Guarded.entered (c : Sections σ ο ρ) (g : Guarded σ κ ο ρ) (t : Nat) (o : ο) :
    Guarded σ κ ο ρ :=
  { g.goto t (.inside o 0 (c.start o)) with locked := true }

/-- One round of the loop around the lock. -/
def Guarded.lock (c : Sections σ ο ρ) (g : Guarded σ κ ο ρ) (t : Nat) : Option (Guarded σ κ ο ρ) :=
  match g.threads[t]? with
  | some (.spinning o) => some (if g.locked then g else g.entered c t o)
  | _ => none

def Guarded.accessed (g : Guarded σ κ ο ρ) (t : Nat) (o : ο) (k : Nat) (x : σ × ρ) :
    Guarded σ κ ο ρ :=
  { g.goto t (.inside o (k + 1) x.2) with shared := x.1 }

/-- The next access of a section. -/
def Guarded.access (c : Sections σ ο ρ) (g : Guarded σ κ ο ρ) (t : Nat) :
    Option (Guarded σ κ ο ρ) :=
  match g.threads[t]? with
  | some (.inside o k regs) =>
      ((c.code o)[k]?).map fun access => g.accessed t o k (access (g.shared, regs))
  | _ => none

/-- The section that a thread has done all accesses of, and its registers there. -/
def Guarded.done (c : Sections σ ο ρ) (g : Guarded σ κ ο ρ) (t : Nat) : Option (ο × ρ) :=
  match g.threads[t]? with
  | some (.inside o k regs) => if k = (c.code o).length then some (o, regs) else none
  | _ => none

def Guarded.unlock (g : Guarded σ κ ο ρ) (t : Nat) (k : κ) : Guarded σ κ ο ρ :=
  { g.goto t (.here k) with locked := false }

/-! ## The invariant -/

def Guarded.Inside (g : Guarded σ κ ο ρ) (t : Nat) : Prop :=
  ∃ o k regs, g.threads[t]? = some (.inside o k regs)

/-- `base` is the memory as it was at the last unlock. -/
structure Guarded.Sound (c : Sections σ ο ρ) (g : Guarded σ κ ο ρ) (base : σ) : Prop where
  free : g.locked = false → g.shared = base
  held : ∀ (t : Nat) (o : ο) (k : Nat) (regs : ρ), g.threads[t]? = some (.inside o k regs) →
    g.locked = true ∧ (g.shared, regs) = c.exec o k base
  one : ∀ t t', g.Inside t → g.Inside t' → t = t'

variable {c : Sections σ ο ρ} {g g' : Guarded σ κ ο ρ} {base : σ} {t : Nat} {o : ο} {regs : ρ}

theorem getElem?_set_eq_some {α : Type} {l : List α} {t t' : Nat} {p q : α}
    (h : (l.set t p)[t']? = some q) : t = t' ∧ p = q ∨ t ≠ t' ∧ l[t']? = some q := by
  rw [List.getElem?_set] at h
  split at h
  · next heq =>
      split at h
      · exact .inl ⟨heq, Option.some.inj h⟩
      · cases h
  · next hne => exact .inr ⟨hne, h⟩

theorem Sections.exec_succ {access : σ × ρ → σ × ρ} {k : Nat} (h : (c.code o)[k]? = some access)
    (m : σ) : c.exec o (k + 1) m = access (c.exec o k m) := by
  simp only [Sections.exec, List.take_add_one, h, Option.toList_some, List.foldl_append,
    List.foldl_cons, List.foldl_nil]

/-- A thread goes from one place outside to another one. -/
theorem Guarded.Sound.goto (h : g.Sound c base) {p : Place κ ο ρ}
    (hp : ∀ o k regs, p ≠ .inside o k regs) : (g.goto t p).Sound c base := by
  have hold : ∀ (t' : Nat) (o : ο) (k : Nat) (regs : ρ), (g.goto t p).threads[t']? = some (.inside o k regs) →
      g.threads[t']? = some (.inside o k regs) := by
    intro t' o k regs ht'
    rcases getElem?_set_eq_some ht' with ⟨-, heq⟩ | ⟨-, hsome⟩
    · exact absurd heq (hp o k regs)
    · exact hsome
  refine ⟨h.free, fun t' o k regs ht' => h.held t' o k regs (hold t' o k regs ht'), ?_⟩
  rintro t₁ t₂ ⟨o₁, k₁, r₁, h₁⟩ ⟨o₂, k₂, r₂, h₂⟩
  exact h.one t₁ t₂ ⟨_, _, _, hold _ _ _ _ h₁⟩ ⟨_, _, _, hold _ _ _ _ h₂⟩

theorem Guarded.Sound.entered (h : g.Sound c base) (hfree : g.locked = false) :
    (g.entered c t o).Sound c base := by
  have hnone : ∀ t', ¬g.Inside t' := by
    rintro t' ⟨o', k', regs', ht'⟩
    rw [(h.held t' o' k' regs' ht').1] at hfree
    cases hfree
  have hself : ∀ (t' : Nat) (o' : ο) (k' : Nat) (regs' : ρ),
      (g.entered c t o).threads[t']? = some (.inside o' k' regs') →
      t = t' ∧ (Place.inside o 0 (c.start o) : Place κ ο ρ) = .inside o' k' regs' := by
    intro t' o' k' regs' ht'
    rcases getElem?_set_eq_some ht' with heq | ⟨-, hsome⟩
    · exact heq
    · exact absurd ⟨o', k', regs', hsome⟩ (hnone t')
  refine ⟨nofun, ?_, ?_⟩
  · intro t' o' k' regs' ht'
    obtain ⟨-, heq⟩ := hself t' o' k' regs' ht'
    cases heq
    exact ⟨rfl, congrArg (fun m => (m, c.start o)) (h.free hfree)⟩
  · rintro t₁ t₂ ⟨o₁, k₁, r₁, h₁⟩ ⟨o₂, k₂, r₂, h₂⟩
    exact (hself _ _ _ _ h₁).1.symm.trans (hself _ _ _ _ h₂).1

theorem Guarded.Sound.lock (h : g.Sound c base) (hg : g.lock c t = some g') : g'.Sound c base := by
  unfold Guarded.lock at hg
  split at hg
  · cases hlocked : g.locked with
    | false =>
        simp only [hlocked, Bool.false_eq_true, ↓reduceIte, Option.some.injEq] at hg
        exact hg ▸ h.entered hlocked
    | true =>
        simp only [hlocked, ↓reduceIte, Option.some.injEq] at hg
        exact hg ▸ h
  · cases hg

theorem Guarded.Sound.access (h : g.Sound c base) (hg : g.access c t = some g') :
    g'.Sound c base := by
  unfold Guarded.access at hg
  split at hg
  · next o k regs ht =>
      obtain ⟨access, hcode, rfl⟩ := Option.map_eq_some_iff.mp hg
      obtain ⟨hlocked, hexec⟩ := h.held t o k regs ht
      have hself : ∀ (t' : Nat) (o' : ο) (k' : Nat) (regs' : ρ),
          (g.accessed t o k (access (g.shared, regs))).threads[t']? =
            some (.inside o' k' regs') → t = t' := by
        intro t' o' k' regs' ht'
        rcases getElem?_set_eq_some ht' with ⟨heq, -⟩ | ⟨-, hsome⟩
        · exact heq
        · exact h.one t t' ⟨_, _, _, ht⟩ ⟨_, _, _, hsome⟩
      refine ⟨fun hfree => ?_, ?_, ?_⟩
      · have hfree : g.locked = false := hfree
        rw [hlocked] at hfree
        cases hfree
      · intro t' o' k' regs' ht'
        refine ⟨hlocked, ?_⟩
        rcases getElem?_set_eq_some ht' with ⟨-, heq⟩ | ⟨hne, -⟩
        · cases heq
          rw [Sections.exec_succ hcode, ← hexec]
          rfl
        · exact absurd (hself t' o' k' regs' ht') hne
      · rintro t₁ t₂ ⟨o₁, k₁, r₁, h₁⟩ ⟨o₂, k₂, r₂, h₂⟩
        exact (hself _ _ _ _ h₁).symm.trans (hself _ _ _ _ h₂)
  · cases hg

theorem Guarded.inside_of_done (hdone : g.done c t = some (o, regs)) :
    g.threads[t]? = some (.inside o (c.code o).length regs) := by
  unfold Guarded.done at hdone
  split at hdone
  · next o' k regs' ht =>
      split at hdone
      · next hk =>
          cases hdone
          rw [ht, hk]
      · cases hdone
  · cases hdone

/-- Behind the unlock the whole section has been done, on the memory of the unlock before. -/
theorem Guarded.Sound.unlock (h : g.Sound c base) (hdone : g.done c t = some (o, regs)) (k : κ) :
    (g.unlock t k).Sound c (c.run o base).1 ∧ regs = (c.run o base).2 := by
  have ht := Guarded.inside_of_done hdone
  obtain ⟨-, hexec⟩ := h.held _ _ _ _ ht
  have hnone : ∀ t', ¬(g.unlock t k).Inside t' := by
    rintro t' ⟨o', k', regs', ht'⟩
    rcases getElem?_set_eq_some ht' with ⟨-, heq⟩ | ⟨hne, hsome⟩
    · cases heq
    · exact hne (h.one t t' ⟨_, _, _, ht⟩ ⟨_, _, _, hsome⟩)
  refine ⟨⟨fun _ => congrArg Prod.fst hexec, ?_, ?_⟩, congrArg Prod.snd hexec⟩
  · exact fun t' o' k' regs' ht' => absurd ⟨o', k', regs', ht'⟩ (hnone t')
  · exact fun t₁ t₂ h₁ _ => absurd h₁ (hnone t₁)

end Umicat.Base
