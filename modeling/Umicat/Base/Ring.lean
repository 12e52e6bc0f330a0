import Mathlib.Data.List.Chain
import Mathlib.Data.List.Nodup

/-!
# Doubly linked rings

A ring of nodes with a sentinel, in memory that holds two pointers for every node. `Ring m h l` says
that the nodes behind the sentinel `h` are `l`, in this order, and that the last of them leads back
to `h`.
-/

namespace Umicat.Base

variable {α : Type*}

structure Links (α : Type*) where
  next : α → α
  prev : α → α

def Links.Linked (m : Links α) (a b : α) : Prop := m.next a = b ∧ m.prev b = a

structure Ring (m : Links α) (h : α) (l : List α) : Prop where
  nodup : (h :: l).Nodup
  linked : (h :: (l ++ [h])).IsChain m.Linked

variable {m : Links α} {h x y : α} {l : List α}

theorem Ring.next_sentinel (r : Ring m h l) : (l ++ [h]).head? = some (m.next h) := by
  cases l with
  | nil =>
      have hlink : m.Linked h h := (List.isChain_cons_cons.mp r.linked).1
      exact congrArg some hlink.1.symm
  | cons a l =>
      have hlink : m.Linked h a := (List.isChain_cons_cons.mp r.linked).1
      exact congrArg some hlink.1.symm

theorem Ring.prev_sentinel (r : Ring m h (l ++ [y])) : m.prev h = y := by
  have hlink := r.linked
  rw [List.append_assoc, List.singleton_append, List.isChain_cons_append_cons_cons] at hlink
  exact hlink.2.1.2

/-- On the ring the two pointers undo each other. -/
theorem Ring.inverse (r : Ring m h l) {a : α} (ha : a ∈ h :: l) :
    m.prev (m.next a) = a ∧ m.next (m.prev a) = a := by
  constructor
  · obtain ⟨l₁, l₂, hl⟩ := List.append_of_mem ha
    obtain ⟨b, l₃, hb⟩ := List.exists_cons_of_ne_nil (by simp : l₂ ++ [h] ≠ [])
    have hlink := r.linked
    rw [← List.cons_append, hl, List.append_assoc, List.cons_append, hb,
      List.isChain_append_cons_cons] at hlink
    rw [hlink.2.1.1, hlink.2.1.2]
  · have ha' : a ∈ l ++ [h] := by simpa [or_comm] using ha
    obtain ⟨l₁, l₂, hl⟩ := List.append_of_mem ha'
    have hlink := r.linked
    rw [hl, ← List.cons_append, ← List.dropLast_append_getLast (by simp : h :: l₁ ≠ []),
      List.append_assoc, List.singleton_append, List.isChain_append_cons_cons] at hlink
    rw [hlink.2.1.2, hlink.2.1.1]

/-- The nodes from the first one round to the sentinel. -/
theorem Ring.cycle_nodup (r : Ring m h l) : (l ++ [h]).Nodup := by
  obtain ⟨hhl, hnodup⟩ := List.nodup_cons.mp r.nodup
  refine List.nodup_append.mpr ⟨hnodup, by simp, fun a ha b hb hab => ?_⟩
  exact hhl (List.mem_singleton.mp hb ▸ hab ▸ ha)

theorem Ring.cycle_eq (r : Ring m h l) : ∃ c, l ++ [h] = m.next h :: c := by
  cases hl : l ++ [h] with
  | nil => simp at hl
  | cons a c =>
      have hfirst := r.next_sentinel
      rw [hl, List.head?_cons] at hfirst
      exact ⟨c, by rw [Option.some.inj hfirst]⟩

/-! ## Operations -/

variable [DecidableEq α]

def Links.setNext (m : Links α) (a b : α) : Links α :=
  { m with next := Function.update m.next a b }

def Links.setPrev (m : Links α) (a b : α) : Links α :=
  { m with prev := Function.update m.prev a b }

def Links.init (m : Links α) (h : α) : Links α := (m.setPrev h h).setNext h h

def Links.insertHead (m : Links α) (h x : α) : Links α :=
  let m := m.setNext x (m.next h)
  let m := m.setPrev (m.next x) x
  let m := m.setPrev x h
  m.setNext h x

/-- Take `x` out. The pointers of `x` itself stay. -/
def Links.remove (m : Links α) (x : α) : Links α :=
  let m := m.setPrev (m.next x) (m.prev x)
  m.setNext (m.prev x) (m.next x)

theorem ring_init (m : Links α) (h : α) : Ring (m.init h) h [] := by
  refine ⟨by simp, ?_⟩
  simp [Links.Linked, Links.init, Links.setNext, Links.setPrev]

/-! ## Insertion -/

theorem insertHead_next (m : Links α) (h x a : α) :
    (m.insertHead h x).next a = if a = h then x else if a = x then m.next h else m.next a := by
  simp [Links.insertHead, Links.setNext, Links.setPrev, Function.update_apply]

theorem insertHead_prev (m : Links α) (h x b : α) :
    (m.insertHead h x).prev b = if b = x then h else if b = m.next h then x else m.prev b := by
  simp [Links.insertHead, Links.setNext, Links.setPrev, Function.update_apply]

/-- Insertion behind the sentinel leaves the links from the old first node on as they are. -/
theorem Ring.chain_insertHead (r : Ring m h l) (hx : x ∉ l ++ [h]) :
    (l ++ [h]).IsChain (m.insertHead h x).Linked := by
  have hold : (l ++ [h]).IsChain m.Linked := r.linked.tail
  have hcycle := r.cycle_nodup
  obtain ⟨c, hc⟩ := r.cycle_eq
  rw [List.isChain_iff_getElem] at hold ⊢
  intro i hi
  obtain ⟨hnext, hprev⟩ := hold i hi
  have hlast : (l ++ [h])[l.length] = h := by simp
  have hfirst : (l ++ [h])[0] = m.next h := by simp [hc]
  have hne (k : Nat) (hk : k < (l ++ [h]).length) : (l ++ [h])[k] ≠ x :=
    fun he => hx (he ▸ List.getElem_mem hk)
  have hlen : i < l.length := by simpa using hi
  have hilast : (l ++ [h])[i] ≠ h := fun he =>
    absurd (hcycle.getElem_inj_iff.mp (he.trans hlast.symm)) (by omega)
  have hifirst : (l ++ [h])[i + 1] ≠ m.next h := fun he =>
    absurd (hcycle.getElem_inj_iff.mp (he.trans hfirst.symm)) (by omega)
  exact ⟨by rw [insertHead_next, if_neg hilast, if_neg (hne i _), hnext],
    by rw [insertHead_prev, if_neg (hne (i + 1) hi), if_neg hifirst, hprev]⟩

theorem Ring.insertHead (r : Ring m h l) (hx : x ∉ h :: l) : Ring (m.insertHead h x) h (x :: l) := by
  obtain ⟨hxh, hxl⟩ := not_or.mp (mt List.mem_cons.mpr hx)
  obtain ⟨hhl, hnodup⟩ := List.nodup_cons.mp r.nodup
  have hxc : x ∉ l ++ [h] := by simp [hxh, hxl]
  obtain ⟨c, hc⟩ := r.cycle_eq
  have hsx : m.next h ≠ x := by
    rintro rfl
    exact hxc (hc ▸ List.mem_cons_self)
  refine ⟨?_, ?_⟩
  · exact List.nodup_cons.mpr ⟨fun hmem => (List.mem_cons.mp hmem).elim (fun e => hxh e.symm) hhl,
      List.nodup_cons.mpr ⟨hxl, hnodup⟩⟩
  · have hnew := r.chain_insertHead hxc
    rw [List.cons_append, List.isChain_cons_cons]
    refine ⟨⟨by simp [insertHead_next], by simp [insertHead_prev]⟩, ?_⟩
    rw [hc] at hnew ⊢
    refine List.isChain_cons_cons.mpr ⟨⟨?_, ?_⟩, hnew⟩
    · simp [insertHead_next, hxh]
    · simp [insertHead_prev, hsx]

/-! ## Removal of the last node -/

theorem remove_next (m : Links α) (x a : α) :
    (m.remove x).next a = if a = m.prev x then m.next x else m.next a := by
  simp [Links.remove, Links.setNext, Links.setPrev, Function.update_apply]

theorem remove_prev (m : Links α) (x b : α) :
    (m.remove x).prev b = if b = m.next x then m.prev x else m.prev b := by
  simp [Links.remove, Links.setNext, Links.setPrev, Function.update_apply]

theorem Ring.removeLast (r : Ring m h (l ++ [y])) : Ring (m.remove y) h l := by
  -- `p` stands before `y`; it is the sentinel when `y` is the only node
  obtain ⟨c, p, hcp⟩ : ∃ c p, h :: l = c ++ [p] :=
    ⟨(h :: l).dropLast, (h :: l).getLast (by simp), (List.dropLast_append_getLast _).symm⟩
  have hy : y ∉ h :: l := by
    have := r.nodup
    rw [← List.cons_append] at this
    exact fun hmem => (List.disjoint_of_nodup_append this) hmem (by simp)
  have hlink := r.linked
  rw [List.append_assoc, ← List.cons_append, hcp, List.append_assoc, List.singleton_append,
    List.singleton_append, List.isChain_append_cons_cons] at hlink
  obtain ⟨hchain, hpy, hyh⟩ := hlink
  have hyh : m.Linked y h := (List.isChain_cons_cons.mp hyh).1
  refine ⟨r.nodup.sublist (List.Sublist.cons_cons h (List.sublist_append_left l [y])), ?_⟩
  rw [← List.cons_append, hcp, List.append_assoc, List.singleton_append,
    List.isChain_append_cons_cons]
  refine ⟨hchain.imp_of_mem_imp fun a b ha hb hab => ?_, ?_, by simp⟩
  · rw [← hcp] at ha hb
    constructor
    · rw [remove_next, hpy.2, if_neg, hab.1]
      rintro rfl
      exact hy (hpy.1 ▸ hab.1 ▸ hb)
    · rw [remove_prev, hyh.1, if_neg, hab.2]
      rintro rfl
      exact hy (hyh.2 ▸ hab.2 ▸ ha)
  · exact ⟨by rw [remove_next, hpy.2, if_pos rfl, hyh.1], by rw [remove_prev, hyh.1, if_pos rfl, hpy.2]⟩

end Umicat.Base
