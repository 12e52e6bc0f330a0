import Mathlib.Order.Defs.Unbundled

/-!
# A single pass that keeps the best candidate

The loop `for i: if cand x[i] and better (key x[i]) bound then bound := key x[i]; best := i` over a
list, and what it returns: the first candidate whose key no other candidate beats, or the default
when no candidate beats the starting bound.
-/

namespace Umicat.Base

variable {α κ : Type*}

/-- The loop from index `i` on, with the best index and the bound found so far. -/
def scan (cand : α → Bool) (key : α → κ) (better : κ → κ → Prop) [DecidableRel better] :
    List α → Nat → Nat → κ → Nat
  | [], _, best, _ => best
  | x :: xs, i, best, bound =>
      if cand x ∧ better (key x) bound then scan cand key better xs (i + 1) i (key x)
      else scan cand key better xs (i + 1) best bound

/-- Position `j` holds the first of the best candidates of `xs`. -/
structure Best (cand : α → Bool) (key : α → κ) (better : κ → κ → Prop) (xs : List α) (j : Nat)
    (x : α) : Prop where
  get : xs[j]? = some x
  eligible : cand x
  unbeaten : ∀ (k : Nat) (y : α), xs[k]? = some y → cand y → ¬ better (key y) (key x)
  first : ∀ (k : Nat) (y : α), k < j → xs[k]? = some y → cand y → better (key x) (key y)

variable {cand : α → Bool} {key : α → κ} {better : κ → κ → Prop}

theorem Best.cons {x y : α} {xs : List α} {j : Nat} (h : Best cand key better xs j y)
    (hx : cand x → better (key y) (key x) ∧ ¬ better (key x) (key y)) :
    Best cand key better (x :: xs) (j + 1) y := by
  refine ⟨by simpa using h.get, h.eligible, ?_, ?_⟩
  · intro k z hz hc
    cases k with
    | zero =>
        simp only [List.getElem?_cons_zero, Option.some.injEq] at hz
        subst hz; exact (hx hc).2
    | succ k => exact h.unbeaten k z (by simpa using hz) hc
  · intro k z hk hz hc
    cases k with
    | zero =>
        simp only [List.getElem?_cons_zero, Option.some.injEq] at hz
        subst hz; exact (hx hc).1
    | succ k => exact h.first k z (by omega) (by simpa using hz) hc

/-- Either nothing beats the bound and the default is returned, or the best candidate beats the
bound and its index is returned. -/
theorem scan_spec (cand : α → Bool) (key : α → κ) (better : κ → κ → Prop) [DecidableRel better]
    [IsStrictTotalOrder κ better] (xs : List α) (i best : Nat) (bound : κ) :
    (scan cand key better xs i best bound = best ∧
      ∀ x ∈ xs, cand x → ¬ better (key x) bound) ∨
    ∃ j x, scan cand key better xs i best bound = i + j ∧ better (key x) bound ∧
      Best cand key better xs j x := by
  induction xs generalizing i best bound with
  | nil => exact Or.inl ⟨rfl, by simp⟩
  | cons x xs ih =>
      by_cases hx : cand x ∧ better (key x) bound
      · simp only [scan, hx, and_self, ↓reduceIte]
        rcases ih (i + 1) i (key x) with ⟨hr, hno⟩ | ⟨j, y, hr, hb, hbest⟩
        · -- nothing later beats `x`, so `x` itself is the answer
          refine Or.inr ⟨0, x, by simpa using hr, hx.2, rfl, hx.1, ?_, by simp⟩
          intro k y hy hc
          cases k with
          | zero =>
              simp only [List.getElem?_cons_zero, Option.some.injEq] at hy
              subst hy; exact irrefl _
          | succ k => exact hno y (List.mem_of_getElem? (by simpa using hy)) hc
        · exact Or.inr ⟨j + 1, y, by omega, trans_of better hb hx.2, hbest.cons fun _ =>
            ⟨hb, fun h => irrefl _ (trans_of better h hb)⟩⟩
      · simp only [scan, hx, ↓reduceIte]
        have hx' : cand x → ¬ better (key x) bound := fun hc hb => hx ⟨hc, hb⟩
        rcases ih (i + 1) best bound with ⟨hr, hno⟩ | ⟨j, y, hr, hb, hbest⟩
        · exact Or.inl ⟨hr, by simpa using ⟨hx', hno⟩⟩
        · refine Or.inr ⟨j + 1, y, by omega, hb, hbest.cons fun hc => ?_⟩
          rcases trichotomous_of better (key y) (key x) with h | h | h
          · exact ⟨h, fun h' => irrefl _ (trans_of better h h')⟩
          · exact absurd (h ▸ hb) (hx' hc)
          · exact absurd (trans_of better h hb) (hx' hc)

/-- The loop returns its default or an index of the list. -/
theorem scan_range (cand : α → Bool) (key : α → κ) (better : κ → κ → Prop) [DecidableRel better]
    (xs : List α) (i best : Nat) (bound : κ) :
    scan cand key better xs i best bound = best ∨
      ∃ j < xs.length, scan cand key better xs i best bound = i + j := by
  induction xs generalizing i best bound with
  | nil => exact Or.inl rfl
  | cons x xs ih =>
      unfold scan
      split
      · rcases ih (i + 1) i (key x) with h | ⟨j, hj, h⟩
        · exact Or.inr ⟨0, by simp, h⟩
        · exact Or.inr ⟨j + 1, by simpa using hj, by omega⟩
      · rcases ih (i + 1) best bound with h | ⟨j, hj, h⟩
        · exact Or.inl h
        · exact Or.inr ⟨j + 1, by simpa using hj, by omega⟩

theorem scan_lt (cand : α → Bool) (key : α → κ) (better : κ → κ → Prop) [DecidableRel better]
    {xs : List α} (h : 0 < xs.length) (bound : κ) :
    scan cand key better xs 0 0 bound < xs.length := by
  rcases scan_range cand key better xs 0 0 bound with h0 | ⟨j, hj, h0⟩ <;> omega

theorem scan_default (cand : α → Bool) (key : α → κ) (better : κ → κ → Prop) [DecidableRel better]
    [IsStrictTotalOrder κ better] {xs : List α} {bound : κ} {x : α}
    (hx : xs[scan cand key better xs 0 0 bound]? = some x) (hc : ¬cand x) :
    scan cand key better xs 0 0 bound = 0 ∧ ∀ y ∈ xs, cand y → ¬ better (key y) bound := by
  rcases scan_spec cand key better xs 0 0 bound with h | ⟨j, y, hr, _, hbest⟩
  · exact h
  · rw [hr, Nat.zero_add, hbest.get] at hx
    cases hx
    exact absurd hbest.eligible hc

/-- What is chosen has `G` just when some candidate with `G` wins against every candidate without, or
there is no candidate and the default has `G`. -/
theorem scan_satisfies_iff (cand : α → Bool) (key : α → κ) (better : κ → κ → Prop)
    [DecidableRel better] [IsStrictTotalOrder κ better] (xs : List α) (bound : κ) (G : Nat → Prop) :
    G (scan cand key better xs 0 0 bound) ↔
      (∃ m x, xs[m]? = some x ∧ cand x ∧ better (key x) bound ∧ G m ∧
        ∀ k y, xs[k]? = some y → cand y → better (key y) bound → ¬G k →
          better (key x) (key y) ∨ ¬better (key y) (key x) ∧ m < k) ∨
      (∀ x ∈ xs, cand x → ¬better (key x) bound) ∧ G 0 := by
  rcases scan_spec cand key better xs 0 0 bound with ⟨hb, hno⟩ | ⟨j, x, hb, hbound, hbest⟩
  · rw [hb]
    refine ⟨fun hG => Or.inr ⟨hno, hG⟩, ?_⟩
    rintro (⟨m, x, hx, hc, hbetter, -⟩ | ⟨-, hG⟩)
    · exact absurd hbetter (hno x (List.mem_of_getElem? hx) hc)
    · exact hG
  · rw [hb, Nat.zero_add]
    constructor
    · intro hG
      refine Or.inl ⟨j, x, hbest.get, hbest.eligible, hbound, hG, fun k y hy hc _ hGk => ?_⟩
      rcases Nat.lt_trichotomy k j with hkj | hkj | hkj
      · exact Or.inl (hbest.first k y hkj hy hc)
      · exact absurd (hkj ▸ hG) hGk
      · exact Or.inr ⟨hbest.unbeaten k y hy hc, hkj⟩
    · rintro (⟨m, y, hy, hc, -, hG, hwins⟩ | ⟨hno, -⟩)
      · -- without `G` the chosen element would lose against `m`
        refine Classical.byContradiction fun hGj => ?_
        rcases hwins j x hbest.get hbest.eligible hbound hGj with hlt | ⟨hnot, hmj⟩
        · exact hbest.unbeaten m y hy hc hlt
        · exact hnot (hbest.first m y hmj hy hc)
      · exact absurd hbound (hno x (List.mem_of_getElem? hbest.get) hbest.eligible)

/-- A choice stays when the chosen element's key does not get worse and no other element changes. -/
theorem scan_raise [DecidableRel better] [IsStrictTotalOrder κ better] {xs ys : List α} {i : Nat}
    {bound : κ} (hlen : xs.length = ys.length)
    (h : ∀ k x y, xs[k]? = some x → ys[k]? = some y →
      (k ≠ i → x = y) ∧ cand x = cand y ∧ ¬better (key x) (key y))
    (hi : scan cand key better xs 0 0 bound = i) : scan cand key better ys 0 0 bound = i := by
  have hget {k : Nat} {y : α} (hy : ys[k]? = some y) : ∃ x, xs[k]? = some x :=
    ⟨_, List.getElem?_eq_getElem (hlen ▸ (List.getElem?_eq_some_iff.mp hy).1)⟩
  have hle {a b c : κ} (hab : better a b) (hac : ¬better a c) : better c b := by
    rcases trichotomous_of better a c with h | h | h
    · exact absurd h hac
    · exact h ▸ hab
    · exact trans_of better h hab
  rcases scan_spec cand key better xs 0 0 bound with ⟨hx, hno⟩ | ⟨j, x, hx, hbound, hbest⟩
  · rcases scan_spec cand key better ys 0 0 bound with ⟨hy, -⟩ | ⟨j, y, hy, hbetter, hbest⟩
    · rw [hy, ← hi, hx]
    · obtain ⟨x, hxj⟩ := hget hbest.get
      by_cases hj : j = i
      · rw [hy, Nat.zero_add, hj]
      · rw [(h j x y hxj hbest.get).1 hj] at hxj
        exact absurd hbetter (hno y (List.mem_of_getElem? hxj) hbest.eligible)
  · rw [Nat.zero_add] at hx
    obtain rfl : j = i := hx.symm.trans hi
    obtain ⟨y, hy⟩ : ∃ y, ys[j]? = some y :=
      ⟨_, List.getElem?_eq_getElem (hlen ▸ (List.getElem?_eq_some_iff.mp hbest.get).1)⟩
    obtain ⟨-, hcand, hnot⟩ := h j x y hbest.get hy
    have hey : cand y := hcand ▸ hbest.eligible
    rcases scan_spec cand key better ys 0 0 bound with ⟨-, hno⟩ | ⟨k, z, hz, -, hbest'⟩
    · exact absurd (hle hbound hnot) (hno y (List.mem_of_getElem? hy) hey)
    · rw [hz, Nat.zero_add]
      obtain ⟨z', hz'⟩ := hget hbest'.get
      have hsame := (h k z' z hz' hbest'.get).1
      -- an element other than the chosen one is the same in both lists, so it loses both times
      rcases Nat.lt_trichotomy k j with hkj | hkj | hkj
      · rw [hsame (Nat.ne_of_lt hkj)] at hz'
        have hfirst := hbest.first k z hkj hz' hbest'.eligible
        exact absurd (hle hfirst hnot) (hbest'.unbeaten j y hy hey)
      · exact hkj
      · rw [hsame (Nat.ne_of_gt hkj)] at hz'
        have hfirst := hbest'.first j y hkj hy hey
        exact absurd (hle hfirst (hbest.unbeaten k z hz' hbest'.eligible)) hnot

theorem scan_all [DecidableRel better] (xs : List α) (h : ∀ x ∈ xs, cand x) (i best : Nat)
    (bound : κ) :
    scan cand key better xs i best bound =
      scan (fun _ => true) id better (xs.map key) i best bound := by
  induction xs generalizing i best bound with
  | nil => rfl
  | cons x xs ih =>
      have hx : cand x := h x (by simp)
      have ih := ih fun y hy => h y (by simp [hy])
      simp only [scan, List.map_cons, hx, true_and, id_eq, ih]

end Umicat.Base
