import Mathlib.Data.List.Sort
import Mathlib.Order.Basic

/-!
# Bubble sort by a key

A sort by a key is stable when it keeps the order of the elements of each key. A sorted list with
given elements of each key is unique, so a stable sort commutes with removing elements and with
renaming them.
-/

namespace Umicat.Base

variable {α β κ : Type*} [LinearOrder κ]

/-- The inner loop: `m` comparisons of neighbours from the front, each followed by a swap if
needed. -/
def bubblePass (key : α → κ) : Nat → List α → List α
  | m + 1, a :: b :: t =>
      if key a > key b then b :: bubblePass key m (a :: t) else a :: bubblePass key m (b :: t)
  | _, l => l

/-- The outer loop: passes of `m - 1`, `m - 2`, ..., 0 comparisons. -/
def bubbleFrom (key : α → κ) : Nat → List α → List α
  | 0, l => l
  | m + 1, l => bubbleFrom key m (bubblePass key m l)

def bubbleSort (key : α → κ) (l : List α) : List α := bubbleFrom key l.length l

variable {key : α → κ}

/-! ## Elements and stability -/

theorem bubblePass_perm (m : Nat) (l : List α) : (bubblePass key m l).Perm l := by
  fun_induction bubblePass key m l with
  | case1 m a b t h ih => exact (ih.cons b).trans (.swap a b t)
  | case2 m a b t h ih => exact ih.cons a
  | case3 => exact .refl _

theorem bubbleFrom_perm (m : Nat) (l : List α) : (bubbleFrom key m l).Perm l := by
  induction m generalizing l with
  | zero => exact .refl _
  | succ m ih => exact (ih _).trans (bubblePass_perm m l)

theorem bubbleSort_perm (l : List α) : (bubbleSort key l).Perm l := bubbleFrom_perm _ l

theorem bubbleSort_eq_nil_iff {l : List α} : bubbleSort key l = [] ↔ l = [] := by
  rw [← List.length_eq_zero_iff, (bubbleSort_perm l).length_eq, List.length_eq_zero_iff]

theorem bubblePass_filter_key (v : κ) (m : Nat) (l : List α) :
    (bubblePass key m l).filter (key · = v) = l.filter (key · = v) := by
  fun_induction bubblePass key m l with
  | case1 m a b t h ih =>
      rw [List.filter_cons, ih]
      by_cases ha : key a = v
      · have hb : key b ≠ v := by rw [← ha]; exact ne_of_lt h
        simp [ha, hb]
      · simp [List.filter_cons, ha]
  | case2 m a b t h ih => simp only [List.filter_cons] at ih ⊢; rw [ih]
  | case3 => rfl

theorem bubbleFrom_filter_key (v : κ) (m : Nat) (l : List α) :
    (bubbleFrom key m l).filter (key · = v) = l.filter (key · = v) := by
  induction m generalizing l with
  | zero => rfl
  | succ m ih => exact (ih _).trans (bubblePass_filter_key v m l)

theorem bubbleSort_filter_key (key : α → κ) (v : κ) (l : List α) :
    (bubbleSort key l).filter (key · = v) = l.filter (key · = v) := bubbleFrom_filter_key v _ l

/-! ## Order -/

theorem bubblePass_append (m : Nat) (front back : List α) (h : m + 1 ≤ front.length) :
    bubblePass key m (front ++ back) = bubblePass key m front ++ back := by
  fun_induction bubblePass key m front with
  | case1 m a b t hab ih =>
      simp only [List.cons_append, bubblePass, hab, ↓reduceIte] at ih ⊢
      rw [ih (by simpa using h)]
  | case2 m a b t hab ih =>
      simp only [List.cons_append, bubblePass, hab, ↓reduceIte] at ih ⊢
      rw [ih (by simpa using h)]
  | case3 m l hl =>
      cases m with
      | zero => simp [bubblePass]
      | succ m =>
          match l, h with
          | a :: b :: t, _ => exact absurd rfl (hl m a b t rfl)

theorem bubblePass_max (key : α → κ) (m : Nat) (l : List α) (h : l.length = m + 1) :
    ∃ front x, bubblePass key m l = front ++ [x] ∧ ∀ y ∈ l, key y ≤ key x := by
  fun_induction bubblePass key m l with
  | case1 m a b t hab ih =>
      obtain ⟨front, x, he, hx⟩ := ih (by simpa using h)
      refine ⟨b :: front, x, by rw [he]; rfl, ?_⟩
      simp only [List.mem_cons, forall_eq_or_imp] at hx ⊢
      exact ⟨hx.1, (le_of_lt hab).trans hx.1, hx.2⟩
  | case2 m a b t hab ih =>
      obtain ⟨front, x, he, hx⟩ := ih (by simpa using h)
      refine ⟨a :: front, x, by rw [he]; rfl, ?_⟩
      simp only [List.mem_cons, forall_eq_or_imp] at hx ⊢
      exact ⟨(not_lt.mp hab).trans hx.1, hx⟩
  | case3 m l hl =>
      match m, l, h with
      | 0, [a], _ => exact ⟨[], a, rfl, by simp⟩
      | m + 1, a :: b :: t, _ => exact absurd rfl (hl m a b t rfl)

def Settled (key : α → κ) (m : Nat) (l : List α) : Prop :=
  ∃ front back, l = front ++ back ∧ front.length = m ∧ back.Pairwise (key · ≤ key ·) ∧
    ∀ x ∈ front, ∀ y ∈ back, key x ≤ key y

theorem Settled.pass {m : Nat} {l : List α} (h : Settled key (m + 1) l) :
    Settled key m (bubblePass key m l) := by
  obtain ⟨front, back, rfl, hlen, hback, hle⟩ := h
  obtain ⟨front', x, hpass, hmax⟩ := bubblePass_max key m front hlen
  have hperm : (front' ++ [x]).Perm front := hpass ▸ bubblePass_perm m front
  have hmem {y} (hy : y ∈ front' ++ [x]) : y ∈ front := hperm.mem_iff.mp hy
  refine ⟨front', x :: back, ?_, ?_, ?_, ?_⟩
  · rw [bubblePass_append m front back (by omega), hpass, List.append_assoc, List.singleton_append]
  · have := hperm.length_eq
    simp only [List.length_append, List.length_singleton] at this
    omega
  · exact List.pairwise_cons.mpr ⟨hle x (hmem (by simp)), hback⟩
  · intro y hy z hz
    rcases List.mem_cons.mp hz with rfl | hz
    · exact hmax y (hmem (by simp [hy]))
    · exact hle y (hmem (by simp [hy])) z hz

theorem bubbleFrom_sorted {m : Nat} {l : List α} (h : Settled key m l) :
    (bubbleFrom key m l).Pairwise (key · ≤ key ·) := by
  induction m generalizing l with
  | zero =>
      obtain ⟨front, back, rfl, hlen, hback, _⟩ := h
      rw [List.length_eq_zero_iff.mp hlen]
      exact hback
  | succ m ih => exact ih h.pass

theorem bubbleSort_sorted (l : List α) : (bubbleSort key l).Pairwise (key · ≤ key ·) :=
  bubbleFrom_sorted ⟨l, [], by simp, rfl, .nil, by simp⟩

/-- Elements of one key keep the order that they had. -/
theorem bubbleSort_stable {R : α → α → Prop} {l : List α} (h : l.Pairwise R) :
    (bubbleSort key l).Pairwise fun a b => key a < key b ∨ key a = key b ∧ R a b := by
  rw [List.pairwise_iff_forall_sublist]
  intro a b hab
  have hle := List.pairwise_iff_forall_sublist.mp (bubbleSort_sorted l) hab
  rcases lt_or_eq_of_le hle with hlt | heq
  · exact Or.inl hlt
  · refine Or.inr ⟨heq, List.pairwise_iff_forall_sublist.mp h ?_⟩
    have hfilter := hab.filter (key · = key b)
    rw [bubbleSort_filter_key] at hfilter
    simp only [List.filter_cons, heq, decide_true, ↓reduceIte, List.filter_nil] at hfilter
    exact hfilter.trans List.filter_sublist

/-! ## Uniqueness -/

theorem eq_of_sorted_of_filter_key {l₁ l₂ : List α} (h₁ : l₁.Pairwise (key · ≤ key ·))
    (h₂ : l₂.Pairwise (key · ≤ key ·))
    (h : ∀ v, l₁.filter (key · = v) = l₂.filter (key · = v)) : l₁ = l₂ := by
  have hmem (x : α) : x ∈ l₁ ↔ x ∈ l₂ := by
    have := congrArg (x ∈ ·) (h (key x))
    simpa using this
  induction l₁ generalizing l₂ with
  | nil =>
      cases l₂ with
      | nil => rfl
      | cons b t => simpa using hmem b
  | cons a s ih =>
      cases l₂ with
      | nil => simpa using hmem a
      | cons b t =>
          -- both heads have the least key, so they are the first elements of that key
          have hab : key a = key b := by
            apply le_antisymm
            · rcases List.mem_cons.mp ((hmem b).mpr (by simp)) with rfl | hb
              · exact le_rfl
              · exact (List.pairwise_cons.mp h₁).1 b hb
            · rcases List.mem_cons.mp ((hmem a).mp (by simp)) with rfl | ha
              · exact le_rfl
              · exact (List.pairwise_cons.mp h₂).1 a ha
          have hhead := h (key a)
          simp only [List.filter_cons, hab, decide_true, ↓reduceIte, List.cons.injEq] at hhead
          obtain ⟨rfl, _⟩ := hhead
          have htail (v : κ) : s.filter (key · = v) = t.filter (key · = v) := by
            have := h v
            simp only [List.filter_cons] at this
            split at this
            · exact (List.cons.inj this).2
            · exact this
          congr 1
          refine ih (List.pairwise_cons.mp h₁).2 (List.pairwise_cons.mp h₂).2 htail fun x => ?_
          have := congrArg (x ∈ ·) (htail (key x))
          simpa using this

theorem bubbleSort_filter (p : α → Bool) (l : List α) :
    bubbleSort key (l.filter p) = (bubbleSort key l).filter p := by
  apply eq_of_sorted_of_filter_key (bubbleSort_sorted _) ((bubbleSort_sorted l).filter _)
  intro v
  rw [bubbleSort_filter_key, List.filter_filter, List.filter_filter]
  simp only [Bool.and_comm (decide _)]
  rw [← List.filter_filter, ← List.filter_filter, bubbleSort_filter_key]

theorem bubbleSort_map (f : β → α) (l : List β) :
    bubbleSort key (l.map f) = (bubbleSort (key ∘ f) l).map f := by
  apply eq_of_sorted_of_filter_key (bubbleSort_sorted _)
  · exact List.pairwise_map.mpr (bubbleSort_sorted l)
  · intro v
    rw [bubbleSort_filter_key, List.filter_map, List.filter_map]
    exact congrArg _ (bubbleSort_filter_key (key ∘ f) v l).symm

/-! ## Lookup on a circle -/

/-- The first element with property `q`, or the first of all when there is none. -/
def firstOrHead (q : α → Bool) (l : List α) : Option α := (l.find? q).or l.head?

theorem firstOrHead_map (f : β → α) (q : α → Bool) (l : List β) :
    firstOrHead q (l.map f) = (firstOrHead (q ∘ f) l).map f := by
  simp only [firstOrHead, List.find?_map, List.head?_map]
  cases l.find? (q ∘ f) <;> rfl

theorem firstOrHead_filter {p q : α → Bool} {l : List α} {x : α}
    (h : firstOrHead q l = some x) (hx : p x) : firstOrHead q (l.filter p) = some x := by
  unfold firstOrHead at h ⊢
  cases hq : l.find? q with
  | some y =>
      rw [hq] at h
      cases h
      have : (l.filter p).find? q = some x := by
        rw [List.find?_filter]
        obtain ⟨hqx, as, bs, rfl, has⟩ := List.find?_eq_some_iff_append.mp hq
        exact List.find?_eq_some_iff_append.mpr
          ⟨by simp [hx, hqx], as, bs, rfl, fun a ha => by simpa using Or.inr (by simpa using has a ha)⟩
      rw [this]
      rfl
  | none =>
      have hnone : (l.filter p).find? q = none := by
        rw [List.find?_eq_none] at hq ⊢
        exact fun a ha => hq a (List.mem_of_mem_filter ha)
      rw [hq, Option.none_or] at h
      rw [hnone, Option.none_or]
      cases l with
      | nil => cases h
      | cons a as =>
          cases h
          simp [hx]

/-- Minimal disruption: when a list grows by new elements and the old ones are only renamed, a
lookup finds a new element or the one that it found before. -/
theorem firstOrHead_bubbleSort_grow {k : β → κ} {old : List β} {new : List α} (f : β → α)
    (fresh : α → Bool) (hkey : k = key ∘ f) (hold : new.filter (!fresh ·) = old.map f)
    (q : κ → Bool) {x : α} (h : firstOrHead (q ∘ key) (bubbleSort key new) = some x) :
    fresh x ∨ (firstOrHead (q ∘ k) (bubbleSort k old)).map f = some x := by
  cases hx : fresh x with
  | true => exact Or.inl rfl
  | false =>
      right
      have hfilter := firstOrHead_filter (p := (!fresh ·)) h (by simp [hx])
      rw [← bubbleSort_filter, hold, bubbleSort_map, firstOrHead_map] at hfilter
      subst hkey
      exact hfilter

theorem firstOrHead_isSome (q : α → Bool) {l : List α} (h : l ≠ []) :
    ∃ x, firstOrHead q l = some x := by
  cases l with
  | nil => exact absurd rfl h
  | cons a as =>
      unfold firstOrHead
      cases (a :: as).find? q with
      | none => exact ⟨a, rfl⟩
      | some x => exact ⟨x, rfl⟩

end Umicat.Base
