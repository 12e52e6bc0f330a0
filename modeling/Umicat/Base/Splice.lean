import Umicat.Base.Ring

/-!
# Any node of a ring

A ring has no first node: each of its nodes may be taken as the sentinel. So insertion behind the
sentinel and removal of the last node give insertion and removal anywhere. Two rings are cut apart and
put together again.
-/

namespace Umicat.Base

variable {α : Type*} {m m' : Links α} {h n x y : α} {l l₁ l₂ : List α}

theorem Ring.rotate (r : Ring m h (l₁ ++ x :: l₂)) : Ring m x (l₂ ++ h :: l₁) := by
  constructor
  · have hperm : (h :: l₁ ++ x :: l₂).Perm (x :: l₂ ++ h :: l₁) := List.perm_append_comm
    exact hperm.nodup_iff.mp r.nodup
  · have hlink := r.linked
    rw [List.append_assoc, List.cons_append, ← List.cons_append, List.isChain_split] at hlink
    rw [List.append_assoc, List.cons_append, ← List.cons_append, List.isChain_split]
    exact hlink.symm

/-- The node behind another one. -/
theorem Ring.next_eq (r : Ring m h (l₁ ++ x :: y :: l₂)) : m.next x = y ∧ m.prev y = x := by
  have hlink := r.linked
  rw [List.append_assoc, List.cons_append, List.cons_append, ← List.cons_append,
    List.isChain_append_cons_cons] at hlink
  exact hlink.2.1

/-- The pointers of the sentinel lead to nodes of the ring. -/
theorem Ring.sentinel_mem (r : Ring m h l) : m.next h ∈ h :: l ∧ m.prev h ∈ h :: l := by
  constructor
  · have hmem := List.mem_of_head? r.next_sentinel
    rcases List.mem_append.mp hmem with hmem | hmem
    · exact List.mem_cons_of_mem h hmem
    · rw [List.mem_singleton.mp hmem]
      exact List.mem_cons_self
  · rcases List.eq_nil_or_concat' l with rfl | ⟨c, y, rfl⟩
    · have hlink : m.Linked h h := (List.isChain_cons_cons.mp r.linked).1
      rw [hlink.2]
      exact List.mem_cons_self
    · rw [r.prev_sentinel]
      exact List.mem_cons_of_mem h (List.mem_append_right c List.mem_cons_self)

theorem Ring.pointers_mem (r : Ring m h l) (hx : x ∈ h :: l) :
    m.next x ∈ h :: l ∧ m.prev x ∈ h :: l := by
  rcases List.mem_cons.mp hx with rfl | hx
  · exact r.sentinel_mem
  · obtain ⟨l₁, l₂, rfl⟩ := List.append_of_mem hx
    have hmem := r.rotate.sentinel_mem
    have hperm : (x :: l₂ ++ h :: l₁).Perm (h :: l₁ ++ x :: l₂) := List.perm_append_comm
    exact ⟨hperm.mem_iff.mp hmem.1, hperm.mem_iff.mp hmem.2⟩

/-- The pointers of all other nodes are as before. -/
def Links.Frame (m m' : Links α) (l : List α) : Prop :=
  ∀ x ∉ l, m'.next x = m.next x ∧ m'.prev x = m.prev x

theorem Links.Frame.refl (m : Links α) (l : List α) : m.Frame m l := fun _ _ => ⟨rfl, rfl⟩

theorem Links.Frame.trans {m'' : Links α} (f : m.Frame m' l) (f' : m'.Frame m'' l) :
    m.Frame m'' l := fun x hx => ⟨(f' x hx).1.trans (f x hx).1, (f' x hx).2.trans (f x hx).2⟩

theorem Links.Frame.mono (f : m.Frame m' l₁) (hsub : ∀ x ∈ l₁, x ∈ l₂) : m.Frame m' l₂ :=
  fun x hx => f x fun hmem => hx (hsub x hmem)

variable [DecidableEq α]

theorem Ring.frame_insertHead (r : Ring m h l) (hx : x ∈ h :: l) (y : α) :
    m.Frame (m.insertHead x y) (y :: h :: l) := by
  intro z hz
  obtain ⟨hzy, hz⟩ := not_or.mp (mt List.mem_cons.mpr hz)
  have hzx : z ≠ x := fun heq => hz (heq ▸ hx)
  have hznext : z ≠ m.next x := fun heq => hz (heq ▸ (r.pointers_mem hx).1)
  constructor
  · rw [insertHead_next, if_neg hzx, if_neg hzy]
  · rw [insertHead_prev, if_neg hzy, if_neg hznext]

theorem Ring.frame_remove (r : Ring m h l) (hx : x ∈ h :: l) : m.Frame (m.remove x) (h :: l) := by
  intro z hz
  have hznext : z ≠ m.next x := fun heq => hz (heq ▸ (r.pointers_mem hx).1)
  have hzprev : z ≠ m.prev x := fun heq => hz (heq ▸ (r.pointers_mem hx).2)
  exact ⟨by rw [remove_next, if_neg hzprev], by rw [remove_prev, if_neg hznext]⟩

theorem Ring.insertAfter (r : Ring m h (l₁ ++ x :: l₂)) (hy : y ∉ h :: (l₁ ++ x :: l₂)) :
    Ring (m.insertHead x y) h (l₁ ++ x :: y :: l₂) := by
  have hy' : y ∉ x :: (l₂ ++ h :: l₁) := by
    simp only [List.mem_cons, List.mem_append] at hy ⊢
    tauto
  have hring : Ring (m.insertHead x y) x ((y :: l₂) ++ h :: l₁) := r.rotate.insertHead hy'
  exact hring.rotate

theorem Ring.remove (r : Ring m h (l₁ ++ x :: l₂)) : Ring (m.remove x) h (l₁ ++ l₂) := by
  cases l₂ with
  | nil =>
      rw [List.append_nil]
      exact r.removeLast
  | cons y l₂ =>
      -- seen from the node behind it, `x` is the last one
      have hy : Ring m y ((l₂ ++ h :: l₁) ++ [x]) := by
        have hring : Ring m h ((l₁ ++ [x]) ++ y :: l₂) := by simpa using r
        simpa using hring.rotate
      exact hy.removeLast.rotate

/-! ## Cutting and joining -/

/-- Cut the ring behind `h` in front of `q`; what stands from `q` on gets the sentinel `n`. -/
def Links.split (m : Links α) (h q n : α) : Links α :=
  let m := m.setPrev n (m.prev h)
  let m := m.setNext (m.prev n) n
  let m := m.setNext n q
  let m := m.setPrev h (m.prev q)
  let m := m.setNext (m.prev h) h
  m.setPrev q n

/-- Join the nodes behind `n` to the ring behind `h`. -/
def Links.add (m : Links α) (h n : α) : Links α :=
  let m := m.setNext (m.prev h) (m.next n)
  let m := m.setPrev (m.next n) (m.prev h)
  let m := m.setPrev h (m.prev n)
  m.setNext (m.prev h) h

omit [DecidableEq α] in
/-- A chain whose links are as before. -/
theorem isChain_congr {c : List α} (hnext : ∀ a ∈ c.dropLast, m'.next a = m.next a)
    (hprev : ∀ b ∈ c.tail, m'.prev b = m.prev b) (hc : c.IsChain m.Linked) :
    c.IsChain m'.Linked := by
  induction c with
  | nil => exact .nil
  | cons a c ih =>
      cases c with
      | nil => exact .singleton a
      | cons b c =>
          obtain ⟨hab, hc⟩ := List.isChain_cons_cons.mp hc
          refine List.isChain_cons_cons.mpr ⟨⟨?_, ?_⟩, ih ?_ ?_ hc⟩
          · rw [hnext a (by simp), hab.1]
          · rw [hprev b (by simp), hab.2]
          · exact fun x hx => hnext x (by simp [hx])
          · exact fun x hx => hprev x (List.mem_cons_of_mem _ hx)

/-- The nodes of a ring by its first and by its last one. -/
structure Ends (h : α) (l c : List α) (y : α) : Prop where
  eq : h :: l = c ++ [y]
  nodup : (h :: l).Nodup

section

variable {c : List α}

omit [DecidableEq α]

theorem exists_ends (hnodup : (h :: l).Nodup) : ∃ c y, Ends h l c y :=
  ⟨_, _, (List.dropLast_append_getLast (List.cons_ne_nil h l)).symm, hnodup⟩

theorem Ends.mem (e : Ends h l c y) (hx : x ∈ c) : x ∈ h :: l :=
  e.eq ▸ List.mem_append_left _ hx

theorem Ends.last_mem (e : Ends h l c y) : y ∈ h :: l :=
  e.eq ▸ List.mem_append_right _ List.mem_cons_self

theorem Ends.ne_last (e : Ends h l c y) (hx : x ∈ c) : x ≠ y :=
  (List.nodup_append.mp (e.eq ▸ e.nodup)).2.2 x hx y List.mem_cons_self

theorem Ends.ne_first (e : Ends h l c y) (hx : x ∈ l) : x ≠ h := by
  rintro rfl
  exact (List.nodup_cons.mp e.nodup).1 hx

/-- Links inside of a part whose pointers are as before, but for the ones that lead out of it. -/
theorem Ends.isChain_congr (e : Ends h l c y) (hnext : ∀ a ∈ c, m'.next a = m.next a)
    (hprev : ∀ b ∈ l, m'.prev b = m.prev b) (hc : (h :: l).IsChain m.Linked) :
    (h :: l).IsChain m'.Linked := by
  refine Umicat.Base.isChain_congr (fun a ha => hnext a ?_) hprev hc
  rw [e.eq, List.dropLast_concat] at ha
  exact ha

end

omit [DecidableEq α] in
/-- A ring as the chain of all its nodes, closed by the link from the last one to the first. -/
theorem ring_iff {c : List α} (hc : h :: l = c ++ [y]) :
    Ring m h l ↔ (c ++ [y]).Nodup ∧ (c ++ [y]).IsChain m.Linked ∧ m.Linked y h := by
  have hcycle : h :: (l ++ [h]) = c ++ y :: h :: [] := by
    rw [← List.cons_append, hc, List.append_assoc]
    rfl
  constructor
  · intro r
    have hlink := r.linked
    rw [hcycle, List.isChain_append_cons_cons] at hlink
    exact ⟨hc ▸ r.nodup, hlink.1, hlink.2.1⟩
  · rintro ⟨hnodup, hchain, hlast⟩
    refine ⟨hc ▸ hnodup, ?_⟩
    rw [hcycle, List.isChain_append_cons_cons]
    exact ⟨hchain, hlast, .singleton h⟩

omit [DecidableEq α] in
/-- Two chains with a link from the one to the other. -/
theorem isChain_append_iff {c d : List α} {q : α} (hd : d = q :: l) :
    ((c ++ [y]) ++ d).IsChain m.Linked ↔
      (c ++ [y]).IsChain m.Linked ∧ m.Linked y q ∧ d.IsChain m.Linked := by
  subst hd
  rw [List.append_assoc, List.singleton_append, List.isChain_append_cons_cons]

/-- Where the pointers lead behind a cut. -/
theorem split_next {q : α} (hq : q ≠ n) (a : α) : (m.split h q n).next a =
    if a = m.prev q then h else if a = n then q else if a = m.prev h then n else m.next a := by
  simp [Links.split, Links.setNext, Links.setPrev, Function.update_apply, hq]

theorem split_prev {q : α} (hq : q ≠ n) (b : α) : (m.split h q n).prev b =
    if b = q then n else if b = h then m.prev q else if b = n then m.prev h else m.prev b := by
  simp [Links.split, Links.setNext, Links.setPrev, Function.update_apply, hq]

theorem Ring.split {q : α} (r : Ring m h (l₁ ++ q :: l₂)) (hn : n ∉ h :: (l₁ ++ q :: l₂)) :
    Ring (m.split h q n) h l₁ ∧ Ring (m.split h q n) n (q :: l₂) := by
  have hnodup := r.nodup
  rw [← List.cons_append] at hnodup
  obtain ⟨hnodup₁, hnodup₂, hapart⟩ := List.nodup_append.mp hnodup
  obtain ⟨c, y, ec⟩ := exists_ends hnodup₁
  obtain ⟨d, z, ed⟩ := exists_ends hnodup₂
  have hcycle : h :: (l₁ ++ q :: l₂) = (c ++ [y] ++ d) ++ [z] := by
    rw [← List.cons_append, ec.eq, ed.eq, ← List.append_assoc]
  obtain ⟨-, hchain, hlast⟩ := (ring_iff hcycle).mp r
  rw [List.append_assoc (c ++ [y]), isChain_append_iff ed.eq.symm, ← ec.eq, ← ed.eq] at hchain
  obtain ⟨hfirst, hyq, hsecond⟩ := hchain
  have hn₁ : ∀ a ∈ h :: l₁, a ≠ n := by
    rintro a ha rfl
    exact hn (List.mem_append_left (q :: l₂) ha)
  have hn₂ : ∀ a ∈ q :: l₂, a ≠ n := by
    rintro a ha rfl
    exact hn (List.mem_append_right (h :: l₁) ha)
  have hq := List.mem_cons_self (a := q) (l := l₂)
  have hh := List.mem_cons_self (a := h) (l := l₁)
  have hnext := split_next (m := m) (h := h) (hn₂ q hq)
  have hprev := split_prev (m := m) (h := h) (hn₂ q hq)
  rw [hyq.2, hlast.2] at hnext hprev
  have hfirst' : (h :: l₁).IsChain (m.split h q n).Linked := by
    refine ec.isChain_congr (fun a ha => ?_) (fun b hb => ?_) hfirst
    · rw [hnext, if_neg (ec.ne_last ha), if_neg (hn₁ a (ec.mem ha)),
        if_neg (hapart a (ec.mem ha) z ed.last_mem)]
    · have hb' := List.mem_cons_of_mem h hb
      rw [hprev, if_neg (hapart b hb' q hq), if_neg (ec.ne_first hb), if_neg (hn₁ b hb')]
  have hsecond' : (q :: l₂).IsChain (m.split h q n).Linked := by
    refine ed.isChain_congr (fun a ha => ?_) (fun b hb => ?_) hsecond
    · rw [hnext, if_neg (hapart y ec.last_mem a (ed.mem ha)).symm, if_neg (hn₂ a (ed.mem ha)),
        if_neg (ed.ne_last ha)]
    · have hb' := List.mem_cons_of_mem q hb
      rw [hprev, if_neg (ed.ne_first hb), if_neg (hapart h hh b hb').symm, if_neg (hn₂ b hb')]
  constructor
  · refine (ring_iff ec.eq).mpr ⟨ec.eq ▸ hnodup₁, ec.eq ▸ hfirst', ?_, ?_⟩
    · rw [hnext, if_pos rfl]
    · rw [hprev, if_neg (hapart h hh q hq), if_pos rfl]
  · have hcycle : n :: (q :: l₂) = (n :: d) ++ [z] := congrArg (n :: ·) ed.eq
    refine (ring_iff hcycle).mpr ⟨?_, ?_, ?_, ?_⟩
    · rw [← hcycle]
      exact List.nodup_cons.mpr ⟨fun hmem => hn₂ n hmem rfl, hnodup₂⟩
    · rw [← hcycle]
      refine List.isChain_cons_cons.mpr ⟨⟨?_, ?_⟩, hsecond'⟩
      · rw [hnext, if_neg (hn₁ y ec.last_mem).symm, if_pos rfl]
      · rw [hprev, if_pos rfl]
    · rw [hnext, if_neg (hapart y ec.last_mem z ed.last_mem).symm, if_neg (hn₂ z ed.last_mem),
        if_pos rfl]
    · rw [hprev, if_neg (hn₂ q hq).symm, if_neg (hn₁ h hh).symm, if_pos rfl]

/-- Where the pointers lead behind a join. -/
theorem add_next (a : α) : (m.add h n).next a =
    if a = (if n = m.next n then m.prev h else m.prev n) then h
    else if a = m.prev h then m.next n else m.next a := by
  by_cases hn : n = m.prev h
  · by_cases ha : a = n
    · simp [Links.add, Links.setNext, Links.setPrev, Function.update_apply, ← hn, ha]
    · simp [Links.add, Links.setNext, Links.setPrev, Function.update_apply, ← hn, ha]
  · simp [Links.add, Links.setNext, Links.setPrev, Function.update_apply, hn]

theorem add_prev (b : α) : (m.add h n).prev b =
    if b = h then (if n = m.next n then m.prev h else m.prev n)
    else if b = m.next n then m.prev h else m.prev b := by
  by_cases hp : n = m.prev h
  · simp [Links.add, Links.setNext, Links.setPrev, Function.update_apply, ← hp]
  · simp [Links.add, Links.setNext, Links.setPrev, Function.update_apply, hp]

/-- Nothing changes when there is nothing to join. -/
theorem Ring.add_nil (r : Ring m h l₁) (r' : Ring m n []) (hn : n ∉ h :: l₁) :
    Ring (m.add h n) h l₁ := by
  obtain ⟨c, y, ec⟩ := exists_ends r.nodup
  obtain ⟨hnodup, hchain, hlast⟩ := (ring_iff ec.eq).mp r
  have hnn : m.next n = n := (Option.some.inj r'.next_sentinel).symm
  have hnext := add_next (m := m) (h := h) (n := n)
  have hprev := add_prev (m := m) (h := h) (n := n)
  simp only [hnn, ↓reduceIte, hlast.2] at hnext hprev
  have hchain' : (h :: l₁).IsChain (m.add h n).Linked := by
    refine ec.isChain_congr (fun a ha => ?_) (fun b hb => ?_) (ec.eq ▸ hchain)
    · rw [hnext, if_neg (ec.ne_last ha), if_neg (ec.ne_last ha)]
    · have hbn : b ≠ n := fun heq => hn (heq ▸ List.mem_cons_of_mem h hb)
      rw [hprev, if_neg (ec.ne_first hb), if_neg hbn]
  refine (ring_iff ec.eq).mpr ⟨hnodup, ec.eq ▸ hchain', ?_, ?_⟩
  · rw [hnext, if_pos rfl]
  · rw [hprev, if_pos rfl]

theorem Ring.add_cons {q : α} (r : Ring m h l₁) (r' : Ring m n (q :: l₂))
    (hapart : (h :: l₁).Disjoint (n :: q :: l₂)) : Ring (m.add h n) h (l₁ ++ q :: l₂) := by
  obtain ⟨hn, hnodup₂⟩ := List.nodup_cons.mp r'.nodup
  obtain ⟨c, y, ec⟩ := exists_ends r.nodup
  obtain ⟨d, z, ed⟩ := exists_ends hnodup₂
  have hcycle : h :: (l₁ ++ q :: l₂) = (c ++ [y] ++ d) ++ [z] := by
    rw [← List.cons_append, ec.eq, ed.eq, ← List.append_assoc]
  have hcycle' : n :: (q :: l₂) = (n :: d) ++ [z] := congrArg (n :: ·) ed.eq
  obtain ⟨-, hchain₁, hlast₁⟩ := (ring_iff ec.eq).mp r
  obtain ⟨-, hchain₂, hlast₂⟩ := (ring_iff hcycle').mp r'
  rw [← ec.eq] at hchain₁
  rw [← hcycle'] at hchain₂
  obtain ⟨hnq, hchain₂⟩ := List.isChain_cons_cons.mp hchain₂
  have hapart : ∀ a ∈ h :: l₁, ∀ b ∈ q :: l₂, a ≠ b :=
    fun a ha b hb heq => hapart ha (heq ▸ List.mem_cons_of_mem n hb)
  have hq := List.mem_cons_self (a := q) (l := l₂)
  have hh := List.mem_cons_self (a := h) (l := l₁)
  have hqn : n ≠ q := fun heq => hn (heq ▸ hq)
  have hnext := add_next (m := m) (h := h) (n := n)
  have hprev := add_prev (m := m) (h := h) (n := n)
  simp only [hnq.1, hqn, ↓reduceIte, hlast₁.2, hlast₂.2] at hnext hprev
  have hfirst : (h :: l₁).IsChain (m.add h n).Linked := by
    refine ec.isChain_congr (fun a ha => ?_) (fun b hb => ?_) hchain₁
    · rw [hnext, if_neg (hapart a (ec.mem ha) z ed.last_mem), if_neg (ec.ne_last ha)]
    · rw [hprev, if_neg (ec.ne_first hb), if_neg (hapart b (List.mem_cons_of_mem h hb) q hq)]
  have hsecond : (q :: l₂).IsChain (m.add h n).Linked := by
    refine ed.isChain_congr (fun a ha => ?_) (fun b hb => ?_) hchain₂
    · rw [hnext, if_neg (ed.ne_last ha), if_neg (hapart y ec.last_mem a (ed.mem ha)).symm]
    · rw [hprev, if_neg (hapart h hh b (List.mem_cons_of_mem q hb)).symm, if_neg (ed.ne_first hb)]
  refine (ring_iff hcycle).mpr ⟨?_, ?_, ?_, ?_⟩
  · rw [List.append_assoc (c ++ [y]), ← ec.eq, ← ed.eq]
    exact List.nodup_append.mpr ⟨r.nodup, hnodup₂, hapart⟩
  · rw [List.append_assoc (c ++ [y]), isChain_append_iff ed.eq.symm, ← ec.eq, ← ed.eq]
    refine ⟨hfirst, ⟨?_, ?_⟩, hsecond⟩
    · rw [hnext, if_neg (hapart y ec.last_mem z ed.last_mem), if_pos rfl]
    · rw [hprev, if_neg (hapart h hh q hq).symm, if_pos rfl]
  · rw [hnext, if_pos rfl]
  · rw [hprev, if_pos rfl]

theorem Ring.add (r : Ring m h l₁) (r' : Ring m n l₂) (hapart : (h :: l₁).Disjoint (n :: l₂)) :
    Ring (m.add h n) h (l₁ ++ l₂) := by
  cases l₂ with
  | nil =>
      rw [List.append_nil]
      exact r.add_nil r' fun hn => hapart hn List.mem_cons_self
  | cons q l₂ => exact r.add_cons r' hapart

end Umicat.Base
