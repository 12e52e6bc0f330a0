import Mathlib.Data.List.Basic

/-!
# Changing one element of a list
-/

namespace Umicat.Base

variable {α β : Type*}

theorem forall_mem_modify {P : α → Prop} {f : α → α} {l : List α} {i : Nat}
    (h : ∀ x ∈ l, P x) (hf : ∀ x ∈ l, P x → P (f x)) : ∀ x ∈ l.modify i f, P x := by
  intro x hx
  obtain ⟨j, hj⟩ := List.mem_iff_getElem?.mp hx
  rw [List.getElem?_modify, Option.map_eq_map, Option.map_eq_some_iff] at hj
  obtain ⟨y, hy, rfl⟩ := hj
  have hmem := List.mem_of_getElem? hy
  split
  · exact hf y hmem (h y hmem)
  · exact h y hmem

theorem map_modify {f : α → α} {g : α → β} {f' : β → β} (h : ∀ x, g (f x) = f' (g x))
    (l : List α) (i : Nat) : (l.modify i f).map g = (l.map g).modify i f' := by
  apply List.ext_getElem?
  intro j
  simp only [List.getElem?_map, List.getElem?_modify, Option.map_eq_map, Option.map_map]
  congr 1
  funext x
  by_cases hi : i = j <;> simp [hi, h]

theorem map_modify_of_eq {f : α → α} {g : α → β} (h : ∀ x, g (f x) = g x) (l : List α) (i : Nat) :
    (l.modify i f).map g = l.map g := by
  have : (l.modify i f).map g = (l.map g).modify i id := map_modify h l i
  rwa [List.modify_id] at this

theorem getElem?_modify_eq_some {f : α → α} {l : List α} {i j : Nat} {y : α}
    (h : (l.modify j f)[i]? = some y) : ∃ x, l[i]? = some x ∧ y = if j = i then f x else x := by
  rw [List.getElem?_modify] at h
  obtain ⟨x, hx, hy⟩ := Option.map_eq_some_iff.mp h
  exact ⟨x, hx, hy.symm⟩

theorem countP_modify {P : α → Bool} {f : α → α} {l : List α} {i : Nat} {x : α}
    (h : l[i]? = some x) :
    (l.modify i f).countP P + (if P x then 1 else 0) = l.countP P + if P (f x) then 1 else 0 := by
  induction l generalizing i with
  | nil => simp at h
  | cons y l ih =>
      cases i with
      | zero =>
          cases Option.some.inj h
          simp only [List.modify_zero_cons, List.countP_cons]
          omega
      | succ i =>
          have := ih (i := i) (by simpa using h)
          simp only [List.modify_succ_cons, List.countP_cons]
          omega

/-! ## Taking out the one occurrence of an element -/

theorem perm_cons_filter_ne [DecidableEq α] {l : List α} {x : α} (hnodup : l.Nodup) (h : x ∈ l) :
    (x :: l.filter (· ≠ x)).Perm l := by
  have hfilter : l.filter (· ≠ x) = l.erase x := by
    rw [hnodup.erase_eq_filter]
    exact List.filter_congr fun y _ => by by_cases hy : y = x <;> simp [hy]
  rw [hfilter]
  exact (List.perm_cons_erase h).symm

theorem countP_filter_ne [DecidableEq α] {P : α → Bool} {l : List α} {x : α} (hnodup : l.Nodup)
    (h : x ∈ l) : (l.filter (· ≠ x)).countP P + (if P x then 1 else 0) = l.countP P := by
  rw [← (perm_cons_filter_ne hnodup h).countP_eq P, List.countP_cons]

end Umicat.Base
