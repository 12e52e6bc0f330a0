import Umicat.Base.Run
import Umicat.Proxy.Lemmas.Count

/-!
# The least connection rule

`uct_upstream_least_conn_get` counts a server up when it selects it and `uct_upstream_connect` counts
it up again when the connection is open, but a teardown counts it down once and a failed attempt not
at all. Every attempt that has ended therefore stays in the counter for good, and the server of least
counter need not be the server of fewest connections.
-/

namespace Umicat.Proxy

open Umicat.Base
open Umicat.Relay
open Umicat.Upstream

/-! ## What the counters hold -/

/-- Number of pairs that are open to server `i` or being opened. -/
def Sys.load (s : Sys) (i : Nat) : Nat := s.openTo i + s.opening i

/-- The load of server `i` and the attempts that have ended. -/
def Sys.charge (s : Sys) (i : Nat) : Nat := s.load i + s.attempts.count i

structure Sys.Charged (s : Sys) : Prop where
  sound : s.Sound
  counts : Counts s.srvs s.charge

variable {ring : List Point} {s s' : Sys} {a : Action} {w : Nat}

theorem charged_init (mem : Nat → Srv) (cs : List Conf) (n : Nat) :
    (Sys.init (confParse mem cs) n).Charged := by
  refine ⟨sound_init _ n, (counts_confParse mem cs).congr fun i => ?_⟩
  simp [Sys.charge, Sys.load, Sys.openTo, Sys.opening, Sys.init, Phase.target,
    List.countP_replicate]

theorem charge_goto {before : Phase} (hw : s.phase w = some before) (phase : Phase) (i : Nat) :
    (s.goto w phase).charge i + (if before.target = some i then 1 else 0) =
      s.charge i + if phase.target = some i then 1 else 0 := by
  have hopening := opening_goto hw phase i
  have hopen : (s.goto w phase).openTo i = s.openTo i := rfl
  have hattempts : (s.goto w phase).attempts = s.attempts := rfl
  rw [Sys.charge, Sys.charge, Sys.load, Sys.load, hopen, hattempts]
  omega

theorem charge_goto_quiet {before phase : Phase} (hw : s.phase w = some before)
    (hbefore : before.target = none) (hafter : phase.target = none) (i : Nat) :
    (s.goto w phase).charge i = s.charge i := by
  simpa [hbefore, hafter] using charge_goto hw phase i

theorem charge_connected {j : Nat} (hw : s.phase w = some (.connecting j)) (client upstream : Fd)
    (now : UInt64) (i : Nat) :
    (s.connected w j client upstream now).charge i = s.charge i + if j = i then 1 else 0 := by
  obtain ⟨k, hk, hphase⟩ := Sys.phase_eq_some hw
  have hworkers : (s.connected w j client upstream now).workers =
      s.workers.modify w (Worker.epollAddProxyConnection ⟨s.nextId, w, client, upstream, j⟩) := rfl
  have hopening := opening_modify hk hworkers i
  have hopen := openTo_connected s w j client upstream now i
  have hattempts : (s.connected w j client upstream now).attempts = j :: s.attempts := rfl
  simp only [hphase, Phase.target, Worker.epollAddProxyConnection, Option.some.injEq,
    reduceCtorEq, ↓reduceIte] at hopening
  simp only [Sys.charge, Sys.load, hopen, hattempts, List.count_cons, beq_iff_eq]
  omega

theorem charge_refused {j : Nat} (hw : s.phase w = some (.connecting j)) (ret : Int) (now : UInt64)
    (i : Nat) : (s.refused w j ret now).charge i = s.charge i := by
  have hgoto := charge_goto hw .accept i
  have hload : (s.refused w j ret now).load i = (s.goto w .accept).load i := rfl
  have hattempts : (s.refused w j ret now).attempts = j :: s.attempts := rfl
  have hattempts' : (s.goto w .accept).attempts = s.attempts := rfl
  simp only [Sys.charge, Phase.target, hattempts', Option.some.injEq, reduceCtorEq,
    ↓reduceIte] at hgoto
  simp only [Sys.charge, hload, hattempts, List.count_cons, beq_iff_eq]
  omega

theorem charge_teardown (h : s.Sound) (w : Nat) {p : Proxied} (hp : p ∈ s.pairs) (i : Nat) :
    (s.teardown w p).charge i + (if p.srv = i then 1 else 0) = s.charge i := by
  have hopen := openTo_teardown h w hp i
  have hattempts : (s.teardown w p).attempts = s.attempts := rfl
  rw [Sys.charge, Sys.charge, Sys.load, Sys.load, opening_teardown, hattempts]
  omega

theorem Sys.Charged.moves (h : s.Charged) (hc : a.choice.all Choice.isLeastConn)
    (hm : s.Moves ring a s') : s'.Charged := by
  refine ⟨h.sound.moves hm, ?_⟩
  cases hm with
  | select w c hw =>
      cases c with
      | leastConn now =>
          refine h.counts.up (fun _ => rfl) fun i => ?_
          have hgoto := charge_goto hw (.connecting (upstreamLeastConnGet now s.srvs).1) i
          simp only [Phase.target, Option.some.injEq, reduceCtorEq, ↓reduceIte,
            Nat.add_zero] at hgoto
          exact hgoto
      | roundRobin now => cases hc
      | ipHash hash => cases hc
      | random now now' rand => cases hc
      | heuristic => cases hc
  | connected w i hw hfresh =>
      exact h.counts.up (Srv.connectionN_connected hfresh.fd_pos _) (charge_connected hw _ _ _)
  | refused w i hw hret =>
      exact (h.counts.same (Srv.connectionN_refused hret _)).congr (charge_refused hw _ _)
  | goto hk hbefore hafter hbatch =>
      have hw : s.phase _ = some _ := congrArg (Option.map Worker.phase) hk
      exact h.counts.congr (charge_goto_quiet hw hbefore hafter)
  | handled hw hbefore hafter hev hf =>
      obtain ⟨hp, -⟩ := h.sound.event hw (hev ▸ List.mem_cons_self)
      have hgoto := h.counts.congr (charge_goto_quiet hw hbefore hafter)
      unfold Sys.handled
      simp only
      split <;> rename_i hclosed
      · simp only [hclosed, ↓reduceIte] at hf
        exact hgoto.down hf (charge_teardown (h.sound.take hw hev).1 _ hp)
      · simp only [hclosed, ↓reduceIte] at hf
        exact hgoto.same hf
  | probe hf => exact h.counts.same hf

/-! ## The selected server -/

def Sys.Considered (s : Sys) (now : UInt64) (i : Nat) : Prop :=
  ∃ srv, s.srvs[i]? = some srv ∧ srv.skipped now = false

/-- Server `b` has the least load of those that are considered. -/
def Sys.Least (s : Sys) (now : UInt64) (b : Nat) : Prop :=
  ∀ j, s.Considered now j → s.load b ≤ s.load j

def Sys.InRange (s : Sys) (now : UInt64) (i : Nat) : Prop :=
  s.Considered now i ∧ s.charge i % 2 ^ 64 < 2 ^ 63 - 1

/-- Some server of least load has the least charge: those of greater load have a greater charge, or
the same one further back in the list. With every charge out of range, server 0 has the least load. -/
def Sys.Aligned (s : Sys) (now : UInt64) : Prop :=
  (∃ m, s.InRange now m ∧ s.Least now m ∧
    ∀ k, s.InRange now k → s.load k = s.load m ∨ s.charge m % 2 ^ 64 < s.charge k % 2 ^ 64 ∨
      s.charge m % 2 ^ 64 = s.charge k % 2 ^ 64 ∧ m < k) ∨
  ((∀ k, ¬s.InRange now k) ∧ s.Least now 0)

theorem Sys.Charged.toNat (h : s.Charged) {i : Nat} {srv : Srv} (hsrv : s.srvs[i]? = some srv) :
    srv.connectionN.toNat = s.charge i % 2 ^ 64 := by
  rw [h.counts i srv hsrv, UInt64.toNat_ofNat']

theorem Sys.Charged.lt_iff (h : s.Charged) {i j : Nat} {srv srv' : Srv}
    (hi : s.srvs[i]? = some srv) (hj : s.srvs[j]? = some srv') :
    srv.connectionN < srv'.connectionN ↔ s.charge i % 2 ^ 64 < s.charge j % 2 ^ 64 := by
  rw [UInt64.lt_iff_toNat_lt, h.toNat hi, h.toNat hj]

theorem Sys.Charged.inRange_iff (h : s.Charged) {now : UInt64} {i : Nat} {srv : Srv}
    (hi : s.srvs[i]? = some srv) :
    s.InRange now i ↔ srv.skipped now = false ∧ srv.connectionN < maxIntT := by
  have hmax : maxIntT.toNat = 2 ^ 63 - 1 := rfl
  rw [UInt64.lt_iff_toNat_lt, h.toNat hi, hmax]
  unfold Sys.InRange Sys.Considered
  simp [hi]

theorem Sys.Charged.leastConnGet (h : s.Charged) (now : UInt64) :
    let b := (upstreamLeastConnGet now s.srvs).1
    (b = 0 ∧ ∀ k, ¬s.InRange now k) ∨
      s.InRange now b ∧ ∀ k, s.InRange now k →
        s.charge b % 2 ^ 64 < s.charge k % 2 ^ 64 ∨
          s.charge b % 2 ^ 64 = s.charge k % 2 ^ 64 ∧ b ≤ k := by
  intro b
  rcases scan_spec (fun s : Srv => !s.skipped now) Srv.connectionN (· < ·) s.srvs 0 0 maxIntT with
    ⟨hb, hno⟩ | ⟨j, x, hb, hlt, hbest⟩
  · refine Or.inl ⟨hb, fun k hk => ?_⟩
    obtain ⟨⟨srv, hsrv, hskip⟩, -⟩ := id hk
    exact hno srv (List.mem_of_getElem? hsrv) (by simp [hskip]) ((h.inRange_iff hsrv).mp hk).2
  · rw [Nat.zero_add] at hb
    have hbj : b = j := hb
    have hskip : x.skipped now = false := by simpa using hbest.eligible
    refine Or.inr ⟨hbj ▸ (h.inRange_iff hbest.get).mpr ⟨hskip, hlt⟩, fun k hk => ?_⟩
    obtain ⟨⟨srv, hsrv, hskip'⟩, -⟩ := id hk
    have hcand : (!srv.skipped now) = true := by simp [hskip']
    have hunbeaten := hbest.unbeaten k srv hsrv hcand
    rw [h.lt_iff hsrv hbest.get] at hunbeaten
    rw [hbj]
    by_cases hkj : k < j
    · have hfirst := hbest.first k srv hkj hsrv hcand
      rw [h.lt_iff hbest.get hsrv] at hfirst
      exact Or.inl hfirst
    · omega

theorem Sys.Charged.least_iff (h : s.Charged) (now : UInt64) :
    s.Least now (upstreamLeastConnGet now s.srvs).1 ↔ s.Aligned now := by
  rcases h.leastConnGet now with ⟨hb, hno⟩ | ⟨hin, hbest⟩
  · rw [hb]
    refine ⟨fun hleast => Or.inr ⟨hno, hleast⟩, ?_⟩
    rintro (⟨m, hm, -⟩ | ⟨-, hleast⟩)
    · exact absurd hm (hno m)
    · exact hleast
  · refine ⟨fun hleast => Or.inl ⟨_, hin, hleast, fun k hk => ?_⟩, ?_⟩
    · rcases hbest k hk with hlt | ⟨heq, hle⟩
      · exact Or.inr (Or.inl hlt)
      · rcases eq_or_lt_of_le hle with rfl | hlt
        · exact Or.inl rfl
        · exact Or.inr (Or.inr ⟨heq, hlt⟩)
    · rintro (⟨m, hm, hleast, hrest⟩ | ⟨hno, -⟩)
      · -- the selected server is not charged more than `m`, so it has the load of `m`
        have hload : s.load (upstreamLeastConnGet now s.srvs).1 = s.load m := by
          have hsel := hbest m hm
          rcases hrest _ hin with heq | hlt | hlt
          · exact heq
          · omega
          · omega
        intro j hj
        rw [hload]
        exact hleast j hj
      · exact absurd hin (hno _)

/-- In every state that workers reach by any interleaving under the least connection rule, the server
that is selected has the least load if and only if the ended attempts leave some server of least
load with the least charge. -/
theorem least_conn_least (mem : Nat → Srv) (cs : List Conf) (n : Nat) {as : List Action}
    (hpolicy : ∀ a ∈ as, a.choice.all Choice.isLeastConn)
    (h : (Sys.init (confParse mem cs) n).run ring as = some s) (now : UInt64) :
    s.Least now (upstreamLeastConnGet now s.srvs).1 ↔ s.Aligned now := by
  have hcharged : s.Charged := by
    refine invariant_foldlM ?_ (charged_init mem cs n) h
    intro s a s' ha hs hstep
    exact hs.moves (hpolicy a ha) (Sys.moves_of_step hstep)
  exact hcharged.least_iff now

/-- With a pair open to server 0, server 1 is selected, and has the least load. -/
theorem least_conn_least_one :
    let c : Conf := ⟨[49], 80, 1, 1, 10, 1, 0, none⟩
    ∃ s, (Sys.init (confParse (fun _ => default) [c, c]) 1).run []
        [.select 0 (.leastConn 5), .connectOk 0 3 4 5] = some s ∧
      (upstreamLeastConnGet 5 s.srvs).1 = 1 ∧ s.Least 5 (upstreamLeastConnGet 5 s.srvs).1 := by
  intro c
  have hrun : ((Sys.init (confParse (fun _ => default) [c, c]) 1).run []
      [.select 0 (.leastConn 5), .connectOk 0 3 4 5]).map (fun s =>
        ((upstreamLeastConnGet 5 s.srvs).1, s.srvs.map (Srv.skipped 5), [0, 1].map s.load,
          [0, 1].map s.charge)) = some (1, [false, false], [1, 0], [2, 0]) := by decide +kernel
  obtain ⟨s, hrun, hvals⟩ := Option.map_eq_some_iff.mp hrun
  simp only [List.map_cons, List.map_nil, Prod.mk.injEq, List.cons.injEq, and_true] at hvals
  obtain ⟨hb, hskip, ⟨hload0, hload1⟩, hcharge0, hcharge1⟩ := hvals
  have hconsidered (i : Nat) (hi : s.Considered 5 i) : i < 2 := by
    obtain ⟨srv, hsrv, -⟩ := hi
    have hlen : s.srvs.length = 2 := by
      rw [← List.length_map (Srv.skipped 5), hskip]
      rfl
    exact hlen ▸ (List.getElem?_eq_some_iff.mp hsrv).1
  have hone : s.Considered 5 1 := by
    have hget : (s.srvs.map (Srv.skipped 5))[1]? = some false := by rw [hskip]; rfl
    rw [List.getElem?_map] at hget
    exact Option.map_eq_some_iff.mp hget
  refine ⟨s, hrun, hb, (least_conn_least _ _ 1 (by decide) hrun 5).mpr (Or.inl ⟨1, ?_, ?_, ?_⟩)⟩
  · exact ⟨hone, by rw [hcharge1]; decide⟩
  · exact fun j _ => hload1 ▸ Nat.zero_le _
  · intro k hk
    have hlt := hconsidered k hk.1
    obtain rfl | rfl : k = 0 ∨ k = 1 := by omega
    · exact Or.inr (Or.inl (by rw [hcharge0, hcharge1]; decide))
    · exact Or.inl rfl

/-- A client of server 1 stays while three clients of server 0 come and go. Then the next client gets
server 1, which has a connection, and not server 0, which has none. -/
theorem least_conn_not_least :
    let c : Conf := ⟨[49], 80, 1, 1, 10, 1, 0, none⟩
    let bye (i : Nat) : List Action := [.clientWait 0 [⟨i, 0, 3, 4, 0⟩],
      .clientEvent 0 5 (fun _ => 0) [.eof] [], .upstreamWait 0 [], .again 0]
    let hello (w : Nat) (client upstream : Fd) : List Action :=
      [.select w (.leastConn 5), .connectOk w client upstream 5]
    let as := hello 0 3 4 ++ hello 1 5 6 ++ bye 0 ++ hello 0 3 4 ++ bye 2 ++ hello 0 3 4 ++ bye 3
    (∀ a ∈ as, a.choice.all Choice.isLeastConn) ∧
      ∃ s, (Sys.init (confParse (fun _ => default) [c, c]) 2).run [] as = some s ∧
        ¬s.Least 5 (upstreamLeastConnGet 5 s.srvs).1 := by
  intro c bye hello as
  refine ⟨by decide, ?_⟩
  have hrun : ((Sys.init (confParse (fun _ => default) [c, c]) 2).run [] as).map (fun s =>
      ((upstreamLeastConnGet 5 s.srvs).1, s.load 0, s.load 1,
        s.srvs[0]?.map (Srv.skipped 5))) = some (1, 0, 1, some false) := by decide +kernel
  obtain ⟨s, hrun, hvals⟩ := Option.map_eq_some_iff.mp hrun
  simp only [Prod.mk.injEq] at hvals
  obtain ⟨hb, h0, h1, hskip⟩ := hvals
  refine ⟨s, hrun, fun hleast => ?_⟩
  have hle := hleast 0 (Option.map_eq_some_iff.mp hskip)
  rw [hb, h0, h1] at hle
  exact absurd hle (by decide)

end Umicat.Proxy
