import Mathlib.Data.Finset.Basic
import Mathlib.Data.Finset.Insert
import Umicat.Base.Run

/-!
# Blocks that are taken and given back

A program takes blocks from a library, reads them and frees them, and may name a block once more that
it has given back. An entry of the ledger is legal when the block that it frees or reads is in use and
the block that it names late is not, and the library is sane when it gives out only blocks that are
not in use.
-/

namespace Umicat.Base

variable {α : Type}

inductive Entry (α : Type)
  | alloc (p : α)
  | free (p : α)
  | read (p : α)
  | late (p : α)
deriving Repr, DecidableEq

namespace Entry

variable [DecidableEq α]

/-- The blocks in use behind an entry. -/
def next (live : Finset α) : Entry α → Finset α
  | alloc p => insert p live
  | free p => live.erase p
  | read _ => live
  | late _ => live

def Sane (live : Finset α) : Entry α → Prop
  | alloc p => p ∉ live
  | free _ => True
  | read _ => True
  | late _ => True

def Legal (live : Finset α) : Entry α → Prop
  | alloc _ => True
  | free p => p ∈ live
  | read p => p ∈ live
  | late p => p ∉ live

instance instDecidableSane (live : Finset α) : (c : Entry α) → Decidable (c.Sane live)
  | alloc p => inferInstanceAs (Decidable (p ∉ live))
  | free _ => inferInstanceAs (Decidable True)
  | read _ => inferInstanceAs (Decidable True)
  | late _ => inferInstanceAs (Decidable True)

end Entry

variable [DecidableEq α]

/-- Whenever the blocks of `l` are in use, the entries are legal and leave those of `l'` in use, as
long as the library is sane. -/
def Books (l : List α) (cs : List (Entry α)) (l' : List α) : Prop :=
  l.Nodup → Along Entry.next Entry.Sane l.toFinset cs →
    Along Entry.next Entry.Legal l.toFinset cs ∧
      cs.foldl Entry.next l.toFinset = l'.toFinset ∧ l'.Nodup

variable {l l' l'' : List α} {cs ds : List (Entry α)} {p : α}

theorem Books.perm (h : l.Perm l') : Books l [] l' :=
  fun hnodup _ => ⟨trivial, List.toFinset_eq_of_perm _ _ h, h.nodup_iff.mp hnodup⟩

theorem Books.refl (l : List α) : Books l [] l := .perm (.refl l)

theorem Books.alloc (l : List α) (p : α) : Books l [.alloc p] (p :: l) := by
  rintro hnodup ⟨hnew, -⟩
  have hp : p ∉ l := fun h => hnew (List.mem_toFinset.mpr h)
  exact ⟨⟨trivial, trivial⟩, (List.toFinset_cons).symm, List.nodup_cons.mpr ⟨hp, hnodup⟩⟩

theorem Books.free (h : l.Perm (p :: l')) : Books l [.free p] l' := by
  intro hnodup _
  obtain ⟨hp, hnodup'⟩ := List.nodup_cons.mp (h.nodup_iff.mp hnodup)
  refine ⟨⟨?_, trivial⟩, ?_, hnodup'⟩
  · exact List.mem_toFinset.mpr (h.mem_iff.mpr List.mem_cons_self)
  · change l.toFinset.erase p = l'.toFinset
    rw [List.toFinset_eq_of_perm _ _ h, List.toFinset_cons,
      Finset.erase_insert (mt List.mem_toFinset.mp hp)]

theorem Books.read (h : p ∈ l) : Books l [.read p] l :=
  fun hnodup _ => ⟨⟨List.mem_toFinset.mpr h, trivial⟩, rfl, hnodup⟩

theorem Books.late (h : p ∉ l) : Books l [.late p] l :=
  fun hnodup _ => ⟨⟨mt List.mem_toFinset.mp h, trivial⟩, rfl, hnodup⟩

theorem Books.trans (h : Books l cs l') (h' : Books l' ds l'') : Books l (cs ++ ds) l'' := by
  intro hnodup hsane
  obtain ⟨hcs, hds⟩ := along_append.mp hsane
  obtain ⟨hlegal, hlive, hnodup'⟩ := h hnodup hcs
  rw [hlive] at hds
  obtain ⟨hlegal', hlive', hnodup''⟩ := h' hnodup' hds
  refine ⟨along_append.mpr ⟨hlegal, ?_⟩, ?_, hnodup''⟩
  · rw [hlive]
    exact hlegal'
  · rw [List.foldl_append, hlive, hlive']

theorem Books.trans_perm (h : Books l cs l') (hperm : l'.Perm l'') : Books l cs l'' := by
  have htrans := h.trans (.perm hperm)
  rwa [List.append_nil] at htrans

theorem Books.congr {k k' : List α} (h : Books k cs k') (hl : l.Perm k) (hl' : k'.Perm l') :
    Books l cs l' :=
  ((Books.perm hl).trans h).trans_perm hl'

theorem Books.readAll (ps : List α) (h : ∀ p ∈ ps, p ∈ l) : Books l (ps.map .read) l := by
  induction ps with
  | nil => exact .refl l
  | cons p ps ih =>
      have hone : Books l [.read p] l := .read (h p List.mem_cons_self)
      exact hone.trans (ih fun q hq => h q (List.mem_cons_of_mem p hq))

theorem Books.lateAll (ps : List α) (h : ∀ p ∈ ps, p ∉ l) : Books l (ps.map .late) l := by
  induction ps with
  | nil => exact .refl l
  | cons p ps ih =>
      have hone : Books l [.late p] l := .late (h p List.mem_cons_self)
      exact hone.trans (ih fun q hq => h q (List.mem_cons_of_mem p hq))

/-- All blocks of a list are freed, in any order. -/
theorem Books.freeAll (ps : List α) (h : l.Perm (ps ++ l')) : Books l (ps.map .free) l' := by
  induction ps generalizing l with
  | nil => exact .perm h
  | cons p ps ih =>
      have hone : Books l [.free p] (ps ++ l') := .free h
      exact hone.trans (ih (.refl _))

omit [DecidableEq α] in
/-- The owners of blocks that are all different are different. -/
theorem nodup_of_flatMap {β : Type} {f : β → List α} (hf : ∀ b, f b ≠ []) {bs : List β}
    (h : (bs.flatMap f).Nodup) : bs.Nodup := by
  induction bs with
  | nil => exact List.nodup_nil
  | cons b bs ih =>
      rw [List.flatMap_cons] at h
      refine List.nodup_cons.mpr ⟨fun hb => ?_, ih (List.nodup_append.mp h).2.1⟩
      obtain ⟨x, hx⟩ := List.exists_mem_of_ne_nil _ (hf b)
      exact List.disjoint_of_nodup_append h hx (List.mem_flatMap.mpr ⟨b, hb, hx⟩)

end Umicat.Base
