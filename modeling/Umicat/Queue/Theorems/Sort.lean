import Mathlib.Data.List.Sort
import Umicat.Queue.Sort

/-!
# Sorting and halving a queue
-/

namespace Umicat.Queue

open Umicat.Base

variable {α : Type} [DecidableEq α] (cmp : α → α → Int) {m : Links α} {h p q : α} {l l₁ l₂ : List α}

/-! ## The inner loop -/

/-- Insertion from the back: behind the last node that is not greater. -/
def insertBack (cmp : α → α → Int) (q : α) (l : List α) : List α :=
  (l.reverse.orderedInsert (fun a b => cmp b a ≤ 0) q).reverse

omit [DecidableEq α] in
theorem insertBack_concat (q p : α) (l : List α) : insertBack cmp q (l ++ [p]) =
    if cmp p q ≤ 0 then l ++ [p, q] else insertBack cmp q l ++ [p] := by
  simp only [insertBack, List.reverse_concat, List.orderedInsert_cons]
  split <;> simp

/-- Insertion behind the last of the nodes `l₁`, or behind the sentinel. -/
theorem ring_insertHead {c : List α} (r : Ring m h (l₁ ++ l₂)) (hc : h :: l₁ = c ++ [p])
    (hq : q ∉ h :: (l₁ ++ l₂)) : Ring (m.insertHead p q) h (l₁ ++ q :: l₂) := by
  cases c with
  | nil =>
      obtain ⟨rfl, rfl⟩ : h = p ∧ l₁ = [] := by simpa using hc
      exact r.insertHead hq
  | cons a c =>
      obtain ⟨rfl, rfl⟩ : h = a ∧ l₁ = c ++ [p] := by simpa using hc
      rw [List.append_assoc] at r hq ⊢
      exact r.insertAfter hq

/-- The nodes up to the place of `q`, the last of them, and the nodes behind it. -/
structure Place (cmp : α → α → Int) (h q : α) (l : List α) (t : α) (l₁ l₂ : List α) : Prop where
  eq : l = l₁ ++ l₂
  last : ∃ c, h :: l₁ = c ++ [t]
  inserted : insertBack cmp q l = l₁ ++ q :: l₂

theorem searchLoop_spec {n : Nat} (r : Ring m h (l ++ [p] ++ l₂)) (hn : l.length < n) :
    ∃ t l₁ d, searchLoop cmp m h q n p = some t ∧ Place cmp h q (l ++ [p]) t l₁ d := by
  induction l using List.reverseRecOn generalizing p l₂ n with
  | nil =>
      obtain ⟨n, rfl⟩ := Nat.exists_eq_succ_of_ne_zero (Nat.ne_of_gt hn)
      have hprev : m.prev p = h := (List.isChain_cons_cons.mp r.linked).1.2
      by_cases hle : cmp p q ≤ 0
      · refine ⟨p, [p], [], by simp [searchLoop, hle], rfl, ⟨[h], rfl⟩, ?_⟩
        rw [insertBack_concat, if_pos hle]
        rfl
      · refine ⟨h, [], [p], by simp [searchLoop, hle, hprev], rfl, ⟨[], rfl⟩, ?_⟩
        rw [insertBack_concat, if_neg hle]
        rfl
  | append_singleton l p' ih =>
      obtain ⟨n, rfl⟩ := Nat.exists_eq_succ_of_ne_zero (Nat.ne_of_gt (Nat.zero_lt_of_lt hn))
      by_cases hle : cmp p q ≤ 0
      · refine ⟨p, l ++ [p'] ++ [p], [], by simp [searchLoop, hle], by simp, ⟨h :: (l ++ [p']), rfl⟩,
          ?_⟩
        rw [insertBack_concat, if_pos hle]
        simp
      · have hring : Ring m h (l ++ p' :: p :: l₂) := by simpa using r
        have hring' : Ring m h (l ++ [p'] ++ p :: l₂) := by simpa using r
        have hprev : m.prev p = p' := hring.next_eq.2
        have hne : p' ≠ h := by
          rintro rfl
          exact (List.nodup_cons.mp r.nodup).1 (by simp)
        have hlen : l.length < n := by simpa using hn
        obtain ⟨t, l₁, d, hsearch, hplace⟩ := ih hring' hlen
        refine ⟨t, l₁, d ++ [p], ?_, ?_, hplace.last, ?_⟩
        · simpa [searchLoop, hle, hprev, hne] using hsearch
        · rw [hplace.eq, List.append_assoc]
        · rw [insertBack_concat, if_neg hle, hplace.inserted]
          simp

/-! ## The outer loop -/

omit [DecidableEq α] in
theorem perm_insertBack (q : α) (l : List α) : (insertBack cmp q l).Perm (q :: l) :=
  (List.reverse_perm _).trans ((List.perm_orderedInsert _ q _).trans (l.reverse_perm.cons q))

omit [DecidableEq α] in
theorem head_next (r : Ring m h (l₁ ++ q :: l₂)) : (l₂ ++ [h]).head? = some (m.next q) := by
  have hnext := r.rotate.next_sentinel
  cases l₂ with
  | nil => exact hnext
  | cons a l₂ => exact hnext

/-- One round: `q` goes from where it is to its place among the nodes in front of it. -/
theorem sortRound {rounds : Nat} (r : Ring m h (l₁ ++ q :: l₂)) (hl₁ : l₁ ≠ [])
    (hrounds : l₁.length ≤ rounds) :
    ∃ t, searchLoop cmp (m.remove q) h q rounds (m.prev q) = some t ∧
      Ring ((m.remove q).insertHead t q) h (insertBack cmp q l₁ ++ l₂) ∧
        m.Frame ((m.remove q).insertHead t q) (h :: (l₁ ++ q :: l₂)) := by
  obtain ⟨l, p, rfl⟩ : ∃ l p, l₁ = l ++ [p] := ⟨_, _, (List.dropLast_append_getLast hl₁).symm⟩
  have hring : Ring m h (l ++ p :: q :: l₂) := by simpa using r
  have hprev : m.prev q = p := hring.next_eq.2
  have hremoved := r.remove
  have hperm : (h :: (l ++ [p] ++ q :: l₂)).Perm (q :: h :: (l ++ [p] ++ l₂)) :=
    (List.perm_middle.cons h).trans (.swap q h _)
  have hq : q ∉ h :: (l ++ [p] ++ l₂) :=
    (List.nodup_cons.mp (hperm.nodup_iff.mp r.nodup)).1
  obtain ⟨t, a, d, hsearch, hplace⟩ := searchLoop_spec cmp (q := q) hremoved
    (by rwa [List.length_append] at hrounds)
  obtain ⟨c, hc⟩ := hplace.last
  have ht : t ∈ h :: (l ++ [p] ++ l₂) := by
    rw [hplace.eq, List.append_assoc, ← List.cons_append, hc]
    simp
  have hframe := (r.frame_remove (hperm.mem_iff.mpr List.mem_cons_self)).trans
    ((hremoved.frame_insertHead ht q).mono fun x hx => hperm.mem_iff.mpr hx)
  rw [hplace.eq, List.append_assoc] at hremoved hq
  refine ⟨t, hprev ▸ hsearch, ?_, hframe⟩
  rw [hplace.inserted, List.append_assoc]
  exact ring_insertHead hremoved hc hq

theorem sortLoop_spec {rounds n : Nat} (r : Ring m h (l₁ ++ l₂)) (hl₁ : l₁ ≠ [])
    (hrounds : (l₁ ++ l₂).length ≤ rounds) (hn : l₂.length < n)
    (hq : (l₂ ++ [h]).head? = some q) :
    ∃ m', sortLoop cmp h rounds n m q = some m' ∧
      Ring m' h (l₂.foldl (fun l q => insertBack cmp q l) l₁) ∧ m.Frame m' (h :: (l₁ ++ l₂)) := by
  induction l₂ generalizing m l₁ n q with
  | nil =>
      obtain ⟨n, rfl⟩ := Nat.exists_eq_succ_of_ne_zero (Nat.ne_of_gt hn)
      obtain rfl : h = q := by simpa using hq
      rw [List.append_nil] at r
      exact ⟨m, by simp [sortLoop], r, .refl m _⟩
  | cons x l₂ ih =>
      obtain ⟨n, rfl⟩ := Nat.exists_eq_succ_of_ne_zero (Nat.ne_of_gt (Nat.zero_lt_of_lt hn))
      obtain rfl : x = q := by simpa using hq
      have hne : x ≠ h := by
        rintro rfl
        exact (List.nodup_cons.mp r.nodup).1 (by simp)
      have hlen : l₁.length ≤ rounds := by
        rw [List.length_append] at hrounds
        omega
      obtain ⟨t, hsearch, hring, hframe⟩ := sortRound cmp r hl₁ hlen
      have hperm := perm_insertBack cmp x l₁
      have hall : (h :: (insertBack cmp x l₁ ++ l₂)).Perm (h :: (l₁ ++ x :: l₂)) :=
        ((hperm.append_right l₂).trans List.perm_middle.symm).cons h
      have hnonempty : insertBack cmp x l₁ ≠ [] := by
        rw [← List.length_pos_iff, hperm.length_eq]
        exact Nat.succ_pos _
      have hrounds : (insertBack cmp x l₁ ++ l₂).length ≤ rounds := by
        have hlength := hall.length_eq
        rw [List.length_cons, List.length_cons] at hlength
        omega
      obtain ⟨m', hloop, hsorted, hframe'⟩ :=
        ih hring hnonempty hrounds (Nat.lt_of_succ_lt_succ hn) (head_next r)
      refine ⟨m', ?_, hsorted, hframe.trans (hframe'.mono fun y hy => hall.mem_iff.mp hy)⟩
      simp only [sortLoop, hne, ↓reduceIte, hsearch, Option.bind_eq_bind, Option.bind_some]
      exact hloop

/-! ## The whole sort -/

omit [DecidableEq α] in
/-- The nodes in the order in which the loop leaves them. -/
theorem foldl_insertBack (l : List α) : l.foldl (fun l q => insertBack cmp q l) [] =
    (l.reverse.insertionSort fun a b => cmp b a ≤ 0).reverse := by
  induction l using List.reverseRecOn with
  | nil => rfl
  | append_singleton l q ih =>
      rw [List.foldl_append, List.foldl_cons, List.foldl_nil, ih, List.reverse_concat,
        List.insertionSort_cons, insertBack, List.reverse_reverse]

theorem queueSort_eq {n : Nat} (r : Ring m h l) (hn : l.length < n) :
    ∃ m', queueSort cmp m h n = some m' ∧
      Ring m' h (l.foldl (fun l q => insertBack cmp q l) []) ∧ m.Frame m' (h :: l) := by
  cases l with
  | nil =>
      have hlink : m.Linked h h := (List.isChain_cons_cons.mp r.linked).1
      exact ⟨m, by simp [queueSort, hlink.1, hlink.2], r, .refl m _⟩
  | cons x l =>
      have hfirst : m.next h = x := (Option.some.inj r.next_sentinel).symm
      cases l with
      | nil =>
          have hlast : m.prev h = x := Ring.prev_sentinel (l := []) r
          exact ⟨m, by simp [queueSort, hfirst, hlast], r, .refl m _⟩
      | cons y l =>
          obtain ⟨d, z, hd⟩ : ∃ d z, y :: l = d ++ [z] :=
            ⟨_, _, (List.dropLast_append_getLast (List.cons_ne_nil y l)).symm⟩
          have hlast : m.prev h = z := by
            rw [hd] at r
            exact Ring.prev_sentinel (l := x :: d) r
          have hne : x ≠ z := by
            rintro rfl
            have hx := (List.nodup_cons.mp (List.nodup_cons.mp r.nodup).2).1
            exact hx (hd ▸ List.mem_append_right d List.mem_cons_self)
          have hring : Ring m h ([] ++ x :: y :: l) := r
          have hring' : Ring m h ([x] ++ y :: l) := r
          obtain ⟨m', hloop, hsorted, hframe⟩ := sortLoop_spec cmp hring' (List.cons_ne_nil x [])
            (Nat.le_of_lt hn) (Nat.lt_of_succ_lt hn) (head_next hring)
          refine ⟨m', ?_, hsorted, hframe⟩
          simp only [queueSort, hfirst, hlast, hne, ↓reduceIte]
          exact hloop

/-- The sort keeps the nodes, orders them, and leaves those that were in order as they stood; nothing
outside of the queue changes. -/
theorem queueSort_stable (cmp : α → α → Int) (htotal : ∀ a b, cmp a b ≤ 0 ∨ cmp b a ≤ 0)
    (htrans : ∀ a b c, cmp a b ≤ 0 → cmp b c ≤ 0 → cmp a c ≤ 0) (m : Links α) (h : α) (l : List α)
    (r : Ring m h l) (n : Nat) (hn : l.length < n) :
    ∃ m' l', queueSort cmp m h n = some m' ∧ Ring m' h l' ∧ m.Frame m' (h :: l) ∧ l'.Perm l ∧
      l'.Pairwise (cmp · · ≤ 0) ∧
        ∀ c : List α, c.Sublist l → c.Pairwise (cmp · · ≤ 0) → c.Sublist l' := by
  obtain ⟨m', hsort, hring, hframe⟩ := queueSort_eq cmp r hn
  rw [foldl_insertBack] at hring
  have : Std.Total fun a b => cmp b a ≤ 0 := ⟨fun a b => htotal b a⟩
  have : IsTrans α fun a b => cmp b a ≤ 0 := ⟨fun a b c hab hbc => htrans c b a hbc hab⟩
  refine ⟨m', _, hsort, hring, hframe, ?_, ?_, ?_⟩
  · exact (List.reverse_perm _).trans ((List.perm_insertionSort _ _).trans l.reverse_perm)
  · exact List.pairwise_reverse.mpr (List.pairwise_insertionSort _ _)
  · intro c hc hpair
    have hsub := List.sublist_insertionSort (r := fun a b => cmp b a ≤ 0)
      (List.pairwise_reverse.mpr hpair) hc.reverse
    exact List.reverse_sublist.mp (by rwa [List.reverse_reverse])

/-- The nodes 25 and 21 stay in their order. -/
theorem queueSort_stable_tens :
    let m : Links Nat := ((((⟨id, id⟩ : Links Nat).init 0).insertHead 0 11).insertHead 0 21).insertHead
      0 25
    ∃ m' l', queueSort (fun a b => (a / 10 : Nat) - (b / 10 : Nat)) m 0 4 = some m' ∧ Ring m' 0 l' ∧
      m.Frame m' [0, 25, 21, 11] ∧ l'.Perm [25, 21, 11] ∧
      l'.Pairwise (fun a b => ((a / 10 : Nat) - (b / 10 : Nat) : Int) ≤ 0) ∧
      ∀ c : List Nat, c.Sublist [25, 21, 11] →
        c.Pairwise (fun a b => ((a / 10 : Nat) - (b / 10 : Nat) : Int) ≤ 0) → c.Sublist l' :=
  queueSort_stable _ (fun _ _ => by omega) (fun _ _ _ _ _ => by omega) _ 0 [25, 21, 11]
    ((((ring_init _ 0).insertHead (by decide)).insertHead (by decide)).insertHead (by decide)) 4
    (by decide)

/-! ## The middle -/

omit [DecidableEq α] in
theorem next_getElem (r : Ring m h l) {i : Nat} (hi : i + 1 < l.length) : m.next l[i] = l[i + 1] := by
  have hlink := (List.isChain_append.mp r.linked.tail).1
  exact (List.isChain_iff_getElem.mp hlink i hi).1

omit [DecidableEq α] in
theorem prev_eq_getElem (r : Ring m h l) (hl : 0 < l.length) : m.prev h = l[l.length - 1] := by
  have hne : l ≠ [] := List.length_pos_iff.mp hl
  rw [← List.getLast_eq_getElem hne]
  rw [← List.dropLast_append_getLast hne] at r
  exact r.prev_sentinel

omit [DecidableEq α] in
theorem getElem_eq_prev_iff (r : Ring m h l) {i : Nat} (hi : i < l.length) :
    l[i] = m.prev h ↔ i + 1 = l.length := by
  rw [prev_eq_getElem r (Nat.zero_lt_of_lt hi),
    (List.nodup_cons.mp r.nodup).2.getElem_inj_iff]
  omega

/-- One of the two pointers goes twice as fast as the other. -/
theorem middleLoop_spec {n i : Nat} (r : Ring m h l) (hi : 2 * i + 1 < l.length)
    (hn : l.length ≤ 2 * (i + n)) :
    middleLoop m h n l[i] l[2 * i] = some l[l.length / 2] := by
  induction n generalizing i with
  | zero => omega
  | succ n ih =>
      simp only [middleLoop, next_getElem r hi, next_getElem r (i := i) (by omega),
        getElem_eq_prev_iff r hi]
      split
      · next hlast =>
          have hhalf : l.length / 2 = i + 1 := by omega
          simp only [hhalf]
      · next hlast =>
          have hi' : 2 * i + 1 + 1 < l.length := by omega
          simp only [next_getElem r hi', getElem_eq_prev_iff r hi']
          split
          · next hlast =>
              have hhalf : l.length / 2 = i + 1 := by omega
              simp only [hhalf]
          · next hlast' => exact ih (i := i + 1) (by omega) (by omega)

theorem queueMiddle_eq {n : Nat} (r : Ring m h l) (hl : 0 < l.length) (hn : l.length ≤ 2 * n) :
    queueMiddle m h n = some l[l.length / 2] := by
  have hfirst : m.next h = l[0] := by
    have hhead := r.next_sentinel
    rw [List.head?_append, List.head?_eq_getElem?, List.getElem?_eq_getElem hl] at hhead
    exact (Option.some.inj hhead).symm
  simp only [queueMiddle, hfirst, getElem_eq_prev_iff r hl]
  split
  · next hone =>
      have hhalf : l.length / 2 = 0 := by omega
      simp only [hhalf]
  · next hmore => exact middleLoop_spec (i := 0) r (by omega) (by omega)

/-- A queue is cut at its middle into two halves, the second of which is the longer one, and joining
them gives the queue again. -/
theorem queue_halves (m : Links α) (h x : α) (l : List α) (r : Ring m h l) (hl : 0 < l.length)
    (hx : x ∉ h :: l) (n : Nat) (hn : l.length ≤ 2 * n) :
    ∃ q, l[l.length / 2]? = some q ∧ queueMiddle m h n = some q ∧
      Ring (m.split h q x) h (l.take (l.length / 2)) ∧
      Ring (m.split h q x) x (l.drop (l.length / 2)) ∧ Ring ((m.split h q x).add h x) h l := by
  have hhalf : l.length / 2 < l.length := by omega
  have hl' : l.take (l.length / 2) ++ l[l.length / 2] :: l.drop (l.length / 2 + 1) = l := by
    rw [← List.drop_eq_getElem_cons hhalf, List.take_append_drop]
  have hdrop := List.drop_eq_getElem_cons hhalf
  obtain ⟨hfirst, hsecond⟩ := Ring.split (m := m) (h := h) (n := x) (by rwa [hl']) (by rwa [hl'])
  rw [← hdrop] at hsecond
  refine ⟨_, List.getElem?_eq_getElem hhalf, queueMiddle_eq r hl hn, hfirst, hsecond, ?_⟩
  have hjoin := hfirst.add hsecond ?_
  · rwa [List.take_append_drop] at hjoin
  · have hnodup := r.nodup
    rw [← List.take_append_drop (l.length / 2) l, ← List.cons_append] at hnodup
    intro y hy hy'
    rcases List.mem_cons.mp hy' with rfl | hy'
    · refine hx ?_
      rw [← List.take_append_drop (l.length / 2) l, ← List.cons_append]
      exact List.mem_append_left _ hy
    · exact List.disjoint_of_nodup_append hnodup hy hy'

theorem queue_halves_three :
    let m : Links Nat := ((((⟨id, id⟩ : Links Nat).init 0).insertHead 0 11).insertHead 0 21).insertHead
      0 25
    queueMiddle m 0 2 = some 21 ∧ Ring (m.split 0 21 1) 0 [25] ∧
      Ring (m.split 0 21 1) 1 [21, 11] ∧ Ring ((m.split 0 21 1).add 0 1) 0 [25, 21, 11] := by
  intro m
  have hring : Ring m 0 [25, 21, 11] :=
    (((ring_init _ 0).insertHead (by decide)).insertHead (by decide)).insertHead (by decide)
  obtain ⟨q, hq, hmiddle, hsplit⟩ := queue_halves m 0 1 [25, 21, 11] hring (by decide) (by decide) 2
    (by decide)
  obtain rfl : 21 = q := Option.some.inj hq
  exact ⟨hmiddle, hsplit⟩

end Umicat.Queue
