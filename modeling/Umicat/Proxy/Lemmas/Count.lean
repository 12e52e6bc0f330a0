import Umicat.Proxy.Lemmas.Step

/-!
# Counting pairs and attempts
-/

namespace Umicat.Proxy

open Umicat.Base
open Umicat.Relay
open Umicat.Upstream

/-! ## Counters of the servers -/

/-- The counter of server `i` is the word of `n i`. -/
def Counts (srvs : List Srv) (n : Nat → Nat) : Prop :=
  ∀ (i : Nat) (srv : Srv), srvs[i]? = some srv → srv.connectionN = UInt64.ofNat (n i)

theorem counts_confParse (mem : Nat → Srv) (cs : List Conf) : Counts (confParse mem cs) fun _ => 0 := by
  intro i srv hsrv
  rw [confParse, List.getElem?_mapIdx] at hsrv
  obtain ⟨c, -, rfl⟩ := Option.map_eq_some_iff.mp hsrv
  rfl

variable {srvs : List Srv} {n n' : Nat → Nat} {j : Nat} {f : Srv → Srv}

theorem Counts.of_map {srvs' : List Srv} (h : Counts srvs n)
    (hmap : srvs'.map Srv.connectionN = srvs.map Srv.connectionN) : Counts srvs' n := by
  intro i srv hsrv
  have hi : (srvs.map Srv.connectionN)[i]? = some srv.connectionN := by
    rw [← hmap, List.getElem?_map, hsrv, Option.map_some]
  rw [List.getElem?_map] at hi
  obtain ⟨t, ht, heq⟩ := Option.map_eq_some_iff.mp hi
  exact heq ▸ h i t ht

theorem Counts.congr (h : Counts srvs n) (hn : ∀ i, n' i = n i) : Counts srvs n' :=
  fun i srv hsrv => (hn i).symm ▸ h i srv hsrv

theorem Counts.same (h : Counts srvs n) (hf : ∀ srv, (f srv).connectionN = srv.connectionN) :
    Counts (srvs.modify j f) n :=
  h.of_map (map_modify_of_eq hf srvs j)

theorem Counts.up (h : Counts srvs n) (hf : ∀ srv, (f srv).connectionN = srv.connectionN + 1)
    (hn : ∀ i, n' i = n i + if j = i then 1 else 0) : Counts (srvs.modify j f) n' := by
  intro i srv hsrv
  obtain ⟨t, ht, rfl⟩ := getElem?_modify_eq_some hsrv
  rw [hn i]
  split
  · rw [hf, h i t ht, UInt64.ofNat_add, UInt64.ofNat_one]
  · exact h i t ht

theorem Counts.down (h : Counts srvs n) (hf : ∀ srv, (f srv).connectionN = srv.connectionN - 1)
    (hn : ∀ i, n' i + (if j = i then 1 else 0) = n i) : Counts (srvs.modify j f) n' := by
  intro i srv hsrv
  obtain ⟨t, ht, rfl⟩ := getElem?_modify_eq_some hsrv
  have hi := h i t ht
  rw [← hn i] at hi
  split
  · next hij => rw [hf, hi, if_pos hij, UInt64.ofNat_add, UInt64.ofNat_one, UInt64.add_sub_cancel]
  · next hij => rwa [if_neg hij, Nat.add_zero] at hi

/-! ## Open pairs and workers on the way -/

variable {s : Sys} {w : Nat} {p : Proxied}

theorem openTo_connected (s : Sys) (w j : Nat) (client upstream : Fd) (now : UInt64) (i : Nat) :
    (s.connected w j client upstream now).openTo i = s.openTo i + if j = i then 1 else 0 := by
  simp [Sys.openTo, Sys.connected, List.countP_cons]

theorem openTo_teardown (h : s.Sound) (w : Nat) (hp : p ∈ s.pairs) (i : Nat) :
    (s.teardown w p).openTo i + (if p.srv = i then 1 else 0) = s.openTo i := by
  have := countP_filter_ne (P := fun q : Proxied => decide (q.srv = i)) h.nodup hp
  simpa [Sys.openTo, Sys.teardown] using this

theorem openTo_le (h : s.Sound) (i : Nat) : s.openTo i ≤ 2 ^ 31 :=
  List.countP_le_length.trans (length_pairs h.distinct)

theorem opening_of_map {s' : Sys}
    (h : s'.workers.map Worker.phase = s.workers.map Worker.phase) (i : Nat) :
    s'.opening i = s.opening i := by
  have hcount (t : Sys) :
      t.opening i = (t.workers.map Worker.phase).countP (·.target = some i) := by
    rw [List.countP_map]
    rfl
  rw [hcount, hcount, h]

theorem opening_teardown (s : Sys) (w : Nat) (p : Proxied) (i : Nat) :
    (s.teardown w p).opening i = s.opening i := by
  apply opening_of_map
  simp only [Sys.teardown]
  rw [map_modify_of_eq fun k : Worker => show k.countDown.phase = k.phase from rfl,
    List.map_map, List.map_map]
  rfl

theorem opening_modify {k : Worker} (hk : s.workers[w]? = some k) {f : Worker → Worker} {s' : Sys}
    (hs' : s'.workers = s.workers.modify w f) (i : Nat) :
    s'.opening i + (if k.phase.target = some i then 1 else 0) =
      s.opening i + if (f k).phase.target = some i then 1 else 0 := by
  have := countP_modify (P := fun k : Worker => decide (k.phase.target = some i)) (f := f) hk
  simpa [Sys.opening, hs'] using this

theorem opening_goto {before : Phase} (hw : s.phase w = some before) (phase : Phase) (i : Nat) :
    (s.goto w phase).opening i + (if before.target = some i then 1 else 0) =
      s.opening i + if phase.target = some i then 1 else 0 := by
  obtain ⟨k, hk, rfl⟩ := Sys.phase_eq_some hw
  have hworkers : (s.goto w phase).workers = s.workers.modify w (Worker.goto phase) := rfl
  exact opening_modify hk hworkers i

end Umicat.Proxy
