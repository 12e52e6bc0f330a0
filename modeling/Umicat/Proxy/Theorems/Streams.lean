import Umicat.Proxy.Streams
import Umicat.Proxy.Theorems.Lifecycle
import Umicat.Relay.Theorems.Prefix

/-!
# Every pair is a pipe of its own

However the steps of the workers interleave and however descriptors are used again, what a connection
accepts is what was read from the connection that it was paired with.
-/

namespace Umicat.Relay

open Umicat.Base

variable {β : Type} {kind : Kind} {ins : List (ReadOutcome β)} {outs : List WriteOutcome}
  {buf : Nat → β} {d : Side β}

/-- An event that has ended has passed on all that it read, unless the destination is silent. -/
theorem relayLoop_flush (he : .error ∉ ins) (hf : FailStop outs)
    (hend : (relayLoop kind buf ins outs).ending ≠ .pending) :
    (relayLoop kind buf ins outs).sent.flatten = (relayLoop kind buf ins outs).read ∨
      Silent (relayLoop kind buf ins outs).outs := by
  induction buf, ins, outs using relayLoop_induction with
  | round buf ins outs ih =>
      rw [error_mem_iff (by decide : 0 < bufSize), not_or] at he
      obtain ⟨-, heq⟩ | ⟨-, -, -, heq⟩ | ⟨len, hlen, ⟨-, heq⟩ | ⟨-, hlt, heq⟩⟩ :=
        relayLoop_cases kind buf ins outs
      · rw [heq] at hend
        exact absurd rfl hend
      · rw [heq]
        exact .inl rfl
      · rw [heq] at hend
        exact absurd rfl hend
      · obtain ⟨herr, -⟩ | ⟨-, -, -, rfl⟩ := hlen
        · exact absurd herr he.1
        · have hsuffix := writen_rest_suffix (readn kind ins buf 0 bufSize).buf
            (readn kind ins buf 0 bufSize).placed.length outs 0
            (readn kind ins buf 0 bufSize).placed.length
          have hwrite := writen_prefix (n := (readn kind ins buf 0 bufSize).placed.length)
            (readn_load_zero kind ins buf bufSize) hf
          rw [heq] at hend ⊢
          simp only [Handled.after, List.flatten_append]
          rcases hwrite.2 with hall | hsilent
          · rw [hall]
            exact (ih _ _ _ hlt he.2 (hf.sublist hsuffix.sublist) hend).imp_left (congrArg (_ ++ ·))
          · exact .inr fun o ho => hsilent o ((relayLoop_outs_suffix _ _ _ _).subset ho)

/-! ## One direction -/

/-- What was accepted is a prefix of what was read, and all of it unless the destination is silent. -/
def Side.Delivered (d : Side β) : Prop :=
  d.sent.flatten <+: d.read ∧ (d.sent.flatten = d.read ∨ Silent d.outs)

structure Side.Faithful (d : Side β) : Prop where
  clean : .error ∉ d.ins
  failStop : FailStop d.outs
  delivered : d.Delivered

theorem Side.Faithful.handle (h : d.Faithful) (buf : Nat → β)
    (hend : (relayLoop kind buf d.ins d.outs).ending ≠ .pending) :
    (d.handle (relayLoop kind buf d.ins d.outs)).Faithful := by
  have hkept : d.Kept :=
    ⟨h.clean, h.failStop, h.delivered.1, h.delivered.2.imp_right Or.inl⟩
  obtain ⟨hclean, hfail, hprefix, -⟩ := hkept.handle kind buf
  refine ⟨hclean, hfail, hprefix, ?_⟩
  rcases h.delivered.2 with hall | hsilent
  · simp only [Side.handle, List.flatten_append, hall]
    exact (relayLoop_flush h.clean h.failStop hend).imp_left (congrArg (_ ++ ·))
  · exact .inr fun o ho => hsilent o ((relayLoop_outs_suffix kind buf d.ins d.outs).subset ho)

end Umicat.Relay

namespace Umicat.Proxy

open Umicat.Base
open Umicat.Relay
open Umicat.Upstream

/-! ## Links -/

section Links

variable {links : List (Nat × Nat)} {c u c' u' : Nat}

/-- The connections `c` and `u` are a pair, in this or in the other order. -/
def Joined (links : List (Nat × Nat)) (c u : Nat) : Prop := (c, u) ∈ links ∨ (u, c) ∈ links

theorem Joined.symm (h : Joined links c u) : Joined links u c := Or.symm h

theorem Joined.mem (h : Joined links c u) : c ∈ links.flatMap fun l => [l.1, l.2] := by
  rcases h with h | h
  · exact List.mem_flatMap.mpr ⟨(c, u), h, by simp⟩
  · exact List.mem_flatMap.mpr ⟨(u, c), h, by simp⟩

/-- A connection is in one pair only. -/
theorem Joined.unique (hnodup : (links.flatMap fun l => [l.1, l.2]).Nodup) (h : Joined links c u)
    (h' : Joined links c u') : u' = u := by
  induction links with
  | nil => simp [Joined] at h
  | cons l links ih =>
      rw [List.flatMap_cons] at hnodup
      have hdisjoint := List.disjoint_of_nodup_append hnodup
      have hne : l.1 ≠ l.2 := by simpa using (List.nodup_append.mp hnodup).1
      have hrest := ih (List.nodup_append.mp hnodup).2.1
      by_cases hc : c ∈ [l.1, l.2]
      · have hnot : ∀ v, ¬Joined links c v := fun v hv => hdisjoint hc hv.mem
        simp only [Joined, List.mem_cons, Prod.ext_iff, not_or] at h h' hnot
        grind
      · simp only [Joined, List.mem_cons, not_or, List.not_mem_nil, not_false_eq_true, and_true,
          Prod.ext_iff] at h h' hc
        exact hrest (by unfold Joined; grind) (by unfold Joined; grind)

theorem Joined.ne (hnodup : (links.flatMap fun l => [l.1, l.2]).Nodup) (h : Joined links c u) :
    c ≠ u := by
  obtain ⟨hpair, -⟩ := List.nodup_flatMap.mp hnodup
  rcases h with h | h
  · simpa using hpair _ h
  · simpa [eq_comm] using hpair _ h

end Links

/-! ## The invariant -/

/-- `clients` are the descriptors of the connections that are in no pair, `pairs` the open pairs. -/
structure Net.Sound (n : Net) (clients : List Fd) (pairs : List Proxied) : Prop where
  below : ∀ fd k, n.opened fd = some k → k < n.count
  one : ∀ fd fd' k, n.opened fd = some k → n.opened fd' = some k → fd = fd'
  clients : ∀ fd ∈ clients, ∃ k, n.opened fd = some k ∧ k ∉ n.linked
  pairs : ∀ p ∈ pairs, ∃ l ∈ n.links, n.opened p.client = some l.1 ∧ n.opened p.upstream = some l.2
  once : n.linked.Nodup
  linked : ∀ k ∈ n.linked, k < n.count
  clean : ∀ k, .error ∉ (n.conns k).ins ∧ FailStop (n.conns k).outs
  alone : ∀ k, k ∉ n.linked → (n.conns k).received = [] ∧ (n.conns k).sent = []
  sides : ∀ c u, Joined n.links c u → (n.side c u).Faithful

theorem net_sound_init (srvs : List Srv) (n : Nat) : (Net.init srvs n).Sound [] [] where
  below := nofun
  one := nofun
  clients := nofun
  pairs := nofun
  once := List.nodup_nil
  linked := nofun
  clean _ := ⟨List.not_mem_nil, List.Pairwise.nil⟩
  alone _ _ := ⟨rfl, rfl⟩
  sides c u h := by simp [Joined, Net.init] at h

variable {n : Net} {clients clients' : List Fd} {pairs pairs' : List Proxied} {fd : Fd}
  {ins : List (ReadOutcome UInt8)} {outs : List WriteOutcome}

theorem Net.Sound.mono (h : n.Sound clients pairs) (hclients : ∀ fd ∈ clients', fd ∈ clients)
    (hpairs : ∀ p ∈ pairs', p ∈ pairs) : n.Sound clients' pairs' :=
  { h with
    clients := fun fd hfd => h.clients fd (hclients fd hfd)
    pairs := fun p hp => h.pairs p (hpairs p hp) }

theorem Net.Sound.withLife (h : n.Sound clients pairs) (l : Life) :
    (n.withLife l).Sound clients pairs :=
  ⟨h.below, h.one, h.clients, h.pairs, h.once, h.linked, h.clean, h.alone, h.sides⟩

theorem pair_mem_fds {p : Proxied} (hp : p ∈ pairs) : p.client ∈ fds pairs ∧ p.upstream ∈ fds pairs :=
  ⟨List.mem_flatMap.mpr ⟨p, hp, by simp⟩, List.mem_flatMap.mpr ⟨p, hp, by simp⟩⟩

/-- A new connection has a number that no other connection has. -/
theorem Net.Sound.openAt (h : n.Sound clients pairs) (hclients : fd ∉ clients)
    (hpairs : fd ∉ fds pairs) (hins : .error ∉ ins) (houts : FailStop outs) :
    (n.openAt fd (.new ins outs)).Sound (fd :: clients) pairs := by
  have hother : ∀ fd', fd' ≠ fd → (n.openAt fd (.new ins outs)).opened fd' = n.opened fd' :=
    fun fd' hne => Function.update_of_ne hne _ _
  have hself : (n.openAt fd (.new ins outs)).opened fd = some n.count := Function.update_self ..
  have hconns : ∀ k, k ≠ n.count → (n.openAt fd (.new ins outs)).conns k = n.conns k :=
    fun k hne => Function.update_of_ne hne _ _
  have hconn : (n.openAt fd (.new ins outs)).conns n.count = .new ins outs :=
    Function.update_self ..
  have hcount : n.count ∉ n.linked := fun hmem => lt_irrefl _ (h.linked _ hmem)
  refine ⟨?_, ?_, ?_, ?_, h.once, ?_, ?_, ?_, ?_⟩
  · intro fd' k hk
    by_cases hfd : fd' = fd
    · rw [hfd, hself] at hk
      cases hk
      exact Nat.lt_succ_self _
    · rw [hother fd' hfd] at hk
      exact Nat.lt_succ_of_lt (h.below fd' k hk)
  · intro fd₁ fd₂ k h₁ h₂
    by_cases hfd₁ : fd₁ = fd
    · by_cases hfd₂ : fd₂ = fd
      · rw [hfd₁, hfd₂]
      · rw [hfd₁, hself] at h₁
        cases h₁
        rw [hother fd₂ hfd₂] at h₂
        exact absurd (h.below _ _ h₂) (lt_irrefl _)
    · by_cases hfd₂ : fd₂ = fd
      · rw [hfd₂, hself] at h₂
        cases h₂
        rw [hother fd₁ hfd₁] at h₁
        exact absurd (h.below _ _ h₁) (lt_irrefl _)
      · rw [hother _ hfd₁] at h₁
        rw [hother _ hfd₂] at h₂
        exact h.one _ _ k h₁ h₂
  · intro fd' hfd'
    rcases List.mem_cons.mp hfd' with rfl | hfd'
    · exact ⟨n.count, hself, hcount⟩
    · rw [hother fd' (ne_of_mem_of_not_mem hfd' hclients)]
      exact h.clients fd' hfd'
  · intro p hp
    rw [hother _ (ne_of_mem_of_not_mem (pair_mem_fds hp).1 hpairs),
      hother _ (ne_of_mem_of_not_mem (pair_mem_fds hp).2 hpairs)]
    exact h.pairs p hp
  · exact fun k hk => Nat.lt_succ_of_lt (h.linked k hk)
  · intro k
    by_cases hk : k = n.count
    · rw [hk, hconn]
      exact ⟨hins, houts⟩
    · rw [hconns k hk]
      exact h.clean k
  · intro k hlinked
    by_cases hk : k = n.count
    · rw [hk, hconn]
      exact ⟨rfl, rfl⟩
    · rw [hconns k hk]
      exact h.alone k hlinked
  · intro c u hcu
    have hc := hconns c (Nat.ne_of_lt (h.linked c hcu.mem))
    have hu := hconns u (Nat.ne_of_lt (h.linked u hcu.symm.mem))
    have hside := h.sides c u hcu
    simp only [Net.side] at hside ⊢
    rwa [hc, hu]

theorem Net.Sound.close (h : n.Sound clients pairs) (hclients : fd ∉ clients)
    (hpairs : fd ∉ fds pairs) : (n.close fd).Sound clients pairs := by
  have hother : ∀ fd', fd' ≠ fd → (n.close fd).opened fd' = n.opened fd' :=
    fun fd' hne => Function.update_of_ne hne _ _
  have hopened : ∀ fd' k, (n.close fd).opened fd' = some k → n.opened fd' = some k := by
    intro fd' k hk
    by_cases hfd : fd' = fd
    · rw [hfd] at hk
      simp [Net.close] at hk
    · rwa [hother fd' hfd] at hk
  refine ⟨fun fd' k hk => h.below fd' k (hopened fd' k hk), ?_, ?_, ?_, h.once, h.linked, h.clean,
    h.alone, h.sides⟩
  · exact fun fd₁ fd₂ k h₁ h₂ => h.one fd₁ fd₂ k (hopened _ _ h₁) (hopened _ _ h₂)
  · intro fd' hfd'
    rw [hother fd' (ne_of_mem_of_not_mem hfd' hclients)]
    exact h.clients fd' hfd'
  · intro p hp
    rw [hother _ (ne_of_mem_of_not_mem (pair_mem_fds hp).1 hpairs),
      hother _ (ne_of_mem_of_not_mem (pair_mem_fds hp).2 hpairs)]
    exact h.pairs p hp

/-- Two connections that are in no pair become one. -/
theorem Net.Sound.link (h : n.Sound clients pairs) {p : Proxied} (hclient : p.client ∈ clients)
    (hupstream : p.upstream ∈ clients) (hne : p.client ≠ p.upstream)
    (hclients : ∀ fd ∈ clients', fd ∈ clients ∧ fd ≠ p.client ∧ fd ≠ p.upstream) :
    (n.link p.client p.upstream).Sound clients' (p :: pairs) := by
  obtain ⟨c, hc, hcnew⟩ := h.clients _ hclient
  obtain ⟨u, hu, hunew⟩ := h.clients _ hupstream
  have hcu : c ≠ u := fun heq => hne (h.one _ _ u (heq ▸ hc) hu)
  have hlink : n.link p.client p.upstream = { n with links := (c, u) :: n.links } := by
    simp only [Net.link, hc, hu]
  rw [hlink]
  have hlinked : Net.linked { n with links := (c, u) :: n.links } = c :: u :: n.linked := rfl
  refine ⟨h.below, h.one, ?_, ?_, ?_, ?_, h.clean, ?_, ?_⟩
  · intro fd hfd
    obtain ⟨hmem, hnec, hneu⟩ := hclients fd hfd
    obtain ⟨k, hk, hknew⟩ := h.clients fd hmem
    refine ⟨k, hk, ?_⟩
    rw [hlinked, List.mem_cons, List.mem_cons, not_or, not_or]
    exact ⟨fun heq => hnec (h.one _ _ c (heq ▸ hk) hc),
      fun heq => hneu (h.one _ _ u (heq ▸ hk) hu), hknew⟩
  · intro q hq
    rcases List.mem_cons.mp hq with rfl | hq
    · exact ⟨(c, u), List.mem_cons_self, hc, hu⟩
    · obtain ⟨l, hl, hopened⟩ := h.pairs q hq
      exact ⟨l, List.mem_cons_of_mem _ hl, hopened⟩
  · rw [hlinked, List.nodup_cons, List.nodup_cons, List.mem_cons, not_or]
    exact ⟨⟨hcu, hcnew⟩, hunew, h.once⟩
  · rw [hlinked]
    simp only [List.forall_mem_cons]
    exact ⟨h.below _ c hc, h.below _ u hu, h.linked⟩
  · intro k hk
    rw [hlinked, List.mem_cons, List.mem_cons, not_or, not_or] at hk
    exact h.alone k hk.2.2
  · intro a b hab
    have hold : a = c ∧ b = u ∨ a = u ∧ b = c ∨ Joined n.links a b := by
      simp only [Joined, List.mem_cons, Prod.mk.injEq] at hab ⊢
      tauto
    have hnew : ∀ x ∉ n.linked, ∀ y ∉ n.linked, (n.side x y).Faithful := by
      intro x hx y hy
      have hdelivered : (n.side x y).Delivered := by
        simp only [Side.Delivered, Net.side, (h.alone x hx).1, (h.alone y hy).2]
        exact ⟨List.nil_prefix, .inl rfl⟩
      exact ⟨(h.clean x).1, (h.clean y).2, hdelivered⟩
    rcases hold with ⟨rfl, rfl⟩ | ⟨rfl, rfl⟩ | hold
    · exact hnew _ hcnew _ hunew
    · exact hnew _ hunew _ hcnew
    · exact h.sides a b hold

/-! ## Transfers -/

variable {e : Transfer} {c u : Nat}

theorem relay_eq (hc : n.opened e.src = some c) (hu : n.opened e.dst = some u) (hne : c ≠ u) :
    n.relay e = { n with
      conns := Function.update (Function.update n.conns c ((n.conns c).read e.handled)) u
        ((n.conns u).write e.handled) } := by
  have hother := Function.update_of_ne hne.symm ((n.conns c).read e.handled) n.conns
  simp only [Net.relay, Net.modify, hc, hu, hother]

/-- The transfer between two connections of a pair is one event of this direction. The other direction
and the other pairs do not notice it. -/
theorem Net.Sound.relay (h : n.Sound clients pairs) (hc : n.opened e.src = some c)
    (hu : n.opened e.dst = some u) (hjoined : Joined n.links c u) (hreports : n.reports e = true)
    (hend : e.handled.ending ≠ .pending) : (n.relay e).Sound clients pairs := by
  have hne := hjoined.ne h.once
  have hins : (n.conns c).ins = e.ins ∧ (n.conns u).outs = e.outs := by
    simpa [Net.reports, hc, hu] using hreports
  have hhandled : e.handled = relayLoop .stream e.buf (n.side c u).ins (n.side c u).outs := by
    simp only [Transfer.handled, Net.side, hins.1, hins.2]
  rw [hhandled] at hend
  have hside := (h.sides c u hjoined).handle e.buf hend
  rw [← hhandled] at hside
  rw [relay_eq hc hu hne]
  generalize e.handled = t at hside
  have hother : ∀ k, k ≠ c → k ≠ u → Function.update (Function.update n.conns c
      ((n.conns c).read t)) u ((n.conns u).write t) k = n.conns k := by
    intro k hkc hku
    rw [Function.update_of_ne hku, Function.update_of_ne hkc]
  have hcconn : Function.update (Function.update n.conns c ((n.conns c).read t)) u
      ((n.conns u).write t) c = (n.conns c).read t := by
    rw [Function.update_of_ne hne, Function.update_self]
  have huconn : Function.update (Function.update n.conns c ((n.conns c).read t)) u
      ((n.conns u).write t) u = (n.conns u).write t := Function.update_self ..
  refine ⟨h.below, h.one, h.clients, h.pairs, h.once, h.linked, ?_, ?_, ?_⟩
  · intro k
    by_cases hkc : k = c
    · rw [hkc]
      simp only [hcconn]
      exact ⟨hside.clean, (h.clean c).2⟩
    · by_cases hku : k = u
      · rw [hku]
        simp only [huconn]
        exact ⟨(h.clean u).1, hside.failStop⟩
      · simp only [hother k hkc hku]
        exact h.clean k
  · intro k hk
    have hkc : k ≠ c := fun heq => hk (heq ▸ hjoined.mem)
    have hku : k ≠ u := fun heq => hk (heq ▸ hjoined.symm.mem)
    simp only [hother k hkc hku]
    exact h.alone k hk
  · intro a b hab
    have hold := h.sides a b hab
    by_cases hac : a = c
    · obtain rfl : b = u := hjoined.unique h.once (hac ▸ hab)
      subst hac
      simp only [Net.side, hcconn, huconn]
      exact hside
    · by_cases hau : a = u
      · obtain rfl : b = c := hjoined.symm.unique h.once (hau ▸ hab)
        subst hau
        simp only [Net.side, hcconn, huconn]
        exact hold
      · have hbc : b ≠ c := fun heq => hau (hjoined.unique h.once (heq ▸ hab.symm))
        have hbu : b ≠ u := fun heq => hac (hjoined.symm.unique h.once (heq ▸ hab.symm))
        simp only [Net.side, hother a hac hau, hother b hbc hbu]
        exact hold

/-! ## Descriptors of a state -/

def Resource.fd? : Resource → Option Fd
  | .socket fd => some fd
  | .pool _ => none

/-- The descriptors of the clients that are in no pair. -/
def Life.clientFds (l : Life) : List Fd := l.queue.map Client.fd ++ l.held.map fun h => h.2.fd

variable {l : Life} {p : Proxied} {w : Nat} {client : Client}

theorem filterMap_resources (l : Life) :
    l.resources.filterMap Resource.fd? = l.clientFds ++ fds l.sys.pairs := by
  simp only [Life.resources, List.filterMap_append, List.filterMap_flatMap, Life.clientFds, fds,
    ← List.flatMap_pure_eq_map]
  rfl

theorem mem_resources_socket (l : Life) (fd : Fd) :
    .socket fd ∈ l.resources ↔ fd ∈ l.clientFds ∨ fd ∈ fds l.sys.pairs := by
  rw [← List.mem_append, ← filterMap_resources, List.mem_filterMap]
  constructor
  · exact fun h => ⟨_, h, rfl⟩
  · rintro ⟨r, hr, hfd⟩
    cases r with
    | socket fd' =>
        cases hfd
        exact hr
    | pool id => cases hfd

theorem Life.Sound.nodup_fds (h : l.Sound) : (l.clientFds ++ fds l.sys.pairs).Nodup := by
  rw [← filterMap_resources]
  refine h.nodup.filterMap fun r r' fd hr hr' => ?_
  cases r <;> cases r' <;> cases hr <;> cases hr'
  rfl

/-- A client that a worker has taken is gone when it is released. -/
theorem Life.Sound.released (h : l.Sound) (hheld : l.heldBy w = some client) :
    client.fd ∈ l.clientFds ∧ client.fd ∉ (l.release w).clientFds ∧
      client.fd ∉ fds l.sys.pairs := by
  have hperm := resources_release h.workers hheld
  have hmem : .socket client.fd ∈ client.resources := List.mem_cons_self
  have hnot : .socket client.fd ∉ (l.release w).resources :=
    fun hr => List.disjoint_of_nodup_append (hperm.nodup_iff.mp h.nodup) hmem hr
  rw [mem_resources_socket, not_or] at hnot
  have hold := (mem_resources_socket l client.fd).mp
    (hperm.mem_iff.mpr (List.mem_append_left _ hmem))
  exact ⟨hold.resolve_right hnot.2, hnot.1, hnot.2⟩

theorem mem_clientFds_release {fd : Fd} (h : fd ∈ (l.release w).clientFds) : fd ∈ l.clientFds := by
  refine List.Sublist.subset ?_ h
  exact (List.Sublist.refl _).append (List.filter_sublist.map _)

/-- The descriptors of a pair that is open belong to nothing else. -/
theorem Life.Sound.apart (h : l.Sound) (hp : p ∈ l.sys.pairs) :
    (p.client ∉ l.clientFds ∧ p.client ∉ fds (l.sys.pairs.filter (· ≠ p))) ∧
      p.upstream ∉ l.clientFds ∧ p.upstream ∉ fds (l.sys.pairs.filter (· ≠ p)) := by
  have hperm : (fds l.sys.pairs).Perm
      ([p.client, p.upstream] ++ fds (l.sys.pairs.filter (· ≠ p))) :=
    (perm_cons_filter_ne h.sys.nodup hp).symm.flatMap_right _
  have hnodup := (hperm.append_left l.clientFds).nodup_iff.mp h.nodup_fds
  have hclients := List.disjoint_of_nodup_append hnodup
  have hpairs := List.disjoint_of_nodup_append (List.nodup_append.mp hnodup).2.1
  have hclient : p.client ∈ [p.client, p.upstream] := List.mem_cons_self
  have hupstream : p.upstream ∈ [p.client, p.upstream] := by simp
  exact ⟨⟨fun hm => hclients hm (List.mem_append_left _ hclient), hpairs hclient⟩,
    fun hm => hclients hm (List.mem_append_left _ hupstream), hpairs hupstream⟩

/-! ## Steps -/

/-- What the calls on the connection that a step opens report. -/
def NetAction.Clean (a : NetAction) : Prop := .error ∉ a.ins ∧ FailStop a.outs

def Net.Kept (n : Net) : Prop := n.Sound n.life.clientFds n.life.sys.pairs

theorem foldl_reads (c : Conn) (n : Net) (rs : List Resource) :
    (rs.map Entry.read).foldl (Net.call c) n = n := by
  induction rs generalizing n with
  | nil => rfl
  | cons r rs ih => exact ih n

theorem Net.Kept.drop (h : n.Kept) (hlife : n.life.Sound) (hheld : n.life.heldBy w = some client) :
    (n.close client.fd).Sound (n.life.release w).clientFds n.life.sys.pairs := by
  obtain ⟨-, hclients, hpairs⟩ := hlife.released hheld
  exact (h.mono (fun _ => mem_clientFds_release) fun _ => id).close hclients hpairs

theorem Net.Kept.paired {upstream : Fd} (h : n.Kept) (hlife : n.life.Sound)
    (hheld : n.life.heldBy w = some client) (hnew : .socket upstream ∉ n.life.resources)
    (hins : .error ∉ ins) (houts : FailStop outs) (id i : Nat) :
    ((n.openAt upstream (.new ins outs)).link client.fd upstream).Sound
      (n.life.release w).clientFds (⟨id, w, client.fd, upstream, i⟩ :: n.life.sys.pairs) := by
  rw [mem_resources_socket, not_or] at hnew
  obtain ⟨hclient, hclients, hpairs⟩ := hlife.released hheld
  have hopen := Net.Sound.openAt h hnew.1 hnew.2 hins houts
  refine hopen.link (p := ⟨id, w, client.fd, upstream, i⟩) (List.mem_cons_of_mem _ hclient)
    List.mem_cons_self (ne_of_mem_of_not_mem hclient hnew.1) fun fd hfd => ?_
  have hmem := mem_clientFds_release hfd
  exact ⟨List.mem_cons_of_mem _ hmem, ne_of_mem_of_not_mem hfd hclients,
    ne_of_mem_of_not_mem hmem hnew.1⟩

/-- The relay loop of an event of `p`, and the teardown if it closes the pair. -/
theorem Net.Kept.event {c : Conn} (h : n.Kept) (hlife : n.life.Sound) (hp : p ∈ n.life.sys.pairs)
    (hends : e.src = p.client ∧ e.dst = p.upstream ∨ e.src = p.upstream ∧ e.dst = p.client)
    (hreports : n.reports e = true) (hend : e.handled.ending ≠ .pending)
    {teardown : List (Entry Resource)}
    (hteardown : ∀ m : Net, teardown.foldl (Net.call c) m = (m.close p.client).close p.upstream ∨
      teardown.foldl (Net.call c) m = (m.close p.upstream).close p.client) :
    ((n.life.relayCalls p ++ if e.handled.ending = .closed then teardown else []).foldl
        (Net.call c) (n.relay e)).Sound n.life.clientFds
      (if e.handled.ending = .closed then n.life.sys.pairs.filter (· ≠ p)
        else n.life.sys.pairs) := by
  obtain ⟨⟨a, b⟩, hl, ha, hb⟩ := h.pairs p hp
  have hrelay : (n.relay e).Sound n.life.clientFds n.life.sys.pairs := by
    rcases hends with ⟨hsrc, hdst⟩ | ⟨hsrc, hdst⟩
    · exact Net.Sound.relay h (hsrc ▸ ha) (hdst ▸ hb) (.inl hl) hreports hend
    · exact Net.Sound.relay h (hsrc ▸ hb) (hdst ▸ ha) (.inr hl) hreports hend
  rw [List.foldl_append, Life.relayCalls, foldl_reads]
  split
  · have hrest := hrelay.mono (fun _ => id) fun q (hq : q ∈ n.life.sys.pairs.filter (· ≠ p)) =>
      List.mem_of_mem_filter hq
    obtain ⟨hclient, hupstream⟩ := hlife.apart hp
    rcases hteardown (n.relay e) with heq | heq
    · rw [heq]
      exact (hrest.close hclient.1 hclient.2).close hupstream.1 hupstream.2
    · rw [heq]
      exact (hrest.close hupstream.1 hupstream.2).close hclient.1 hclient.2
  · exact hrelay

variable {ring : List Point} {n' : Net}

theorem Net.Kept.other {s : Sys} {a : Action} (h : n.Kept) (hlife : n.life.Sound)
    (hs : n.life.sys.step ring a = some s) (ha : n.life.free a = true)
    (hreports : (n.life.transfer (.other a)).all n.reports = true) (c : Conn) :
    ((n.life.otherCalls a).foldl (Net.call c) (n.transferred (n.life.transfer (.other a)))).Sound
      n.life.clientFds s.pairs := by
  cases a with
  | select w c => cases ha
  | connectOk w client upstream now => cases ha
  | connectFail w ret now => cases ha
  | clientEvent w now buf ins outs =>
      obtain ⟨p, evs, hw, hend, rfl⟩ := step_clientEvent hs
      obtain ⟨hp, -⟩ := hlife.sys.event hw List.mem_cons_self
      simp only [Life.transfer, hw, Option.all_some] at hreports
      simp only [Life.transfer, Life.otherCalls, hw, Net.transferred, pairs_handled]
      exact h.event (e := ⟨p.client, p.upstream, buf, ins, outs⟩) hlife hp (.inl ⟨rfl, rfl⟩)
        hreports hend fun _ => .inl rfl
  | upstreamEvent w buf ins outs =>
      obtain ⟨p, evs, hw, hend, rfl⟩ := step_upstreamEvent hs
      obtain ⟨hp, -⟩ := hlife.sys.event hw List.mem_cons_self
      simp only [Life.transfer, hw, Option.all_some] at hreports
      simp only [Life.transfer, Life.otherCalls, hw, Net.transferred, pairs_handled]
      exact h.event (e := ⟨p.upstream, p.client, buf, ins, outs⟩) hlife hp (.inr ⟨rfl, rfl⟩)
        hreports hend fun _ => .inr rfl
  | _ =>
      rw [pairs_of_step hs rfl]
      exact h

theorem Net.Kept.acts {a : NetAction} {l : Life} (h : n.Kept) (hlife : n.life.Sound)
    (ha : a.Clean) (hreports : (n.life.transfer a.act).all n.reports = true)
    (hstep : n.life.step ring a.act = some l) : (n.acts ring a).Sound l.clientFds l.sys.pairs := by
  obtain ⟨act, ins, outs⟩ := a
  obtain ⟨hins, houts⟩ := ha
  cases act with
  | accept fd =>
      simp only [Life.step] at hstep
      split at hstep
      · cases hstep
      · next hfd =>
          cases hstep
          rw [mem_resources_socket, not_or] at hfd
          refine (Net.Sound.openAt h hfd.1 hfd.2 hins houts).mono (fun fd' hfd' => ?_) fun _ => id
          simp only [Life.clientFds, List.map_append, List.map_cons, List.map_nil, List.mem_append,
            List.mem_cons] at hfd' ⊢
          tauto
  | take w =>
      simp only [Life.step] at hstep
      split at hstep
      · next c queue hqueue hheld =>
          split at hstep
          · cases hstep
            have hacts : n.acts ring ⟨.take w, ins, outs⟩ = n := by
              simp [Net.acts, Life.calls, hqueue, Life.transfer, Net.transferred, Net.call,
                Net.paired]
            rw [hacts]
            refine h.mono (fun fd hfd => ?_) fun _ => id
            simp only [Life.clientFds, hqueue, List.map_cons, List.mem_append, List.mem_cons] at hfd ⊢
            tauto
          · cases hstep
      · cases hstep
  | select w c =>
      simp only [Life.step] at hstep
      split at hstep
      · next client s hheld hs =>
          have hpairs := pairs_of_step hs rfl
          simp only [Net.acts, Life.transfer, Life.calls, hheld, Net.transferred, Net.paired]
          split at hstep
          · next hnone =>
              cases hstep
              rw [if_pos hnone]
              exact hpairs ▸ h.drop hlife hheld
          · next hnone =>
              cases hstep
              rw [if_neg hnone]
              exact hpairs ▸ h
      · cases hstep
  | connectOk w upstream now =>
      simp only [Life.step] at hstep
      split at hstep
      · next client hheld =>
          split at hstep
          · cases hstep
          · next hnew =>
              obtain ⟨s, hs, rfl⟩ := Option.map_eq_some_iff.mp hstep
              obtain ⟨i, -, -, rfl⟩ := step_connectOk hs
              simp only [Net.acts, Life.transfer, Life.calls, hheld, Net.transferred, Net.paired]
              exact h.paired hlife hheld hnew hins houts _ _
      · cases hstep
  | connectFail w ret now =>
      simp only [Life.step] at hstep
      split at hstep
      · next client hheld =>
          obtain ⟨s, hs, rfl⟩ := Option.map_eq_some_iff.mp hstep
          have hpairs := pairs_of_step hs rfl
          simp only [Net.acts, Life.transfer, Life.calls, hheld, Net.transferred, Net.paired]
          exact hpairs ▸ h.drop hlife hheld
      · cases hstep
  | other a =>
      simp only [Life.step] at hstep
      split at hstep
      · next hfree =>
          obtain ⟨s, hs, rfl⟩ := Option.map_eq_some_iff.mp hstep
          exact h.other hlife hs hfree hreports _
      · cases hstep

theorem Net.Kept.step {a : NetAction} (h : n.Kept) (hlife : n.life.Sound) (ha : a.Clean)
    (hstep : n.step ring a = some n') : n'.Kept ∧ n'.life.Sound := by
  unfold Net.step at hstep
  split at hstep
  · next hreports =>
      obtain ⟨l, hl, rfl⟩ := Option.map_eq_some_iff.mp hstep
      exact ⟨(h.acts hlife ha hreports hl).withLife l, (hlife.step hl).1⟩
  · cases hstep

theorem Net.Kept.run {as : List NetAction} (h : n.Kept) (hlife : n.life.Sound)
    (has : ∀ a ∈ as, a.Clean) (hrun : n.run ring as = some n') : n'.Kept := by
  induction as generalizing n with
  | nil =>
      cases hrun
      exact h
  | cons a as ih =>
      obtain ⟨n₁, hstep, hrest⟩ := Option.bind_eq_some_iff.mp hrun
      obtain ⟨hkept, hlife'⟩ := h.step hlife (has a List.mem_cons_self) hstep
      exact ih hkept hlife' (fun b hb => has b (List.mem_cons_of_mem _ hb)) hrest

/-- In every run of the acceptor, the workers and the checker, on connections whose reads report no
hard error and whose writes accept nothing behind one: each connection accepts a prefix of what was
read from the connection that it was paired with, and all of it unless it accepts nothing any more. No
connection is paired twice, one that is in no pair is neither read nor written, and the descriptors of
every open pair stand for the two connections of a pair. -/
theorem streams_of_run (ring : List Point) (srvs : List Srv) (workers : Nat) {as : List NetAction}
    (has : ∀ a ∈ as, a.Clean) {n : Net} (hrun : (Net.init srvs workers).run ring as = some n) :
    (∀ l ∈ n.links, (n.side l.1 l.2).Delivered ∧ (n.side l.2 l.1).Delivered) ∧
      n.linked.Nodup ∧
      (∀ k, k ∉ n.linked → (n.conns k).received = [] ∧ (n.conns k).sent = []) ∧
      ∀ p ∈ n.life.sys.pairs, ∃ l ∈ n.links,
        n.opened p.client = some l.1 ∧ n.opened p.upstream = some l.2 := by
  have hkept : n.Kept :=
    Net.Kept.run (net_sound_init srvs workers) (life_sound_init srvs workers) has hrun
  refine ⟨fun l hl => ⟨?_, ?_⟩, hkept.once, hkept.alone, hkept.pairs⟩
  · exact (hkept.sides l.1 l.2 (.inl hl)).delivered
  · exact (hkept.sides l.2 l.1 (.inr hl)).delivered

/-- Both directions of a pair, the end of its client, and another client and another upstream connection
on the same two descriptors. -/
theorem streams_of_run_reused :
    let c : Conf := ⟨[49], 80, 1, 1, 10, 1, 0, none⟩
    let n := Net.init (confParse (fun _ => default) [c]) 1
    let ev := fun a => NetAction.mk (.other a) [] []
    let as : List NetAction :=
      [⟨.accept 5, [.data [1, 2], .eagain, .eagain, .eof], [.part 0, .all]⟩, ⟨.take 0, [], []⟩,
        ⟨.select 0 (.roundRobin 5), [], []⟩,
        ⟨.connectOk 0 7 5, [.data [8, 9], .eagain, .eagain], [.all]⟩,
        ev (.clientWait 0 [⟨0, 0, 5, 7, 0⟩]),
        ev (.clientEvent 0 7 (fun _ => 0) [.data [1, 2], .eagain, .eagain, .eof] [.all]),
        ev (.upstreamWait 0 [⟨0, 0, 5, 7, 0⟩]),
        ev (.upstreamEvent 0 (fun _ => 0) [.data [8, 9], .eagain, .eagain] [.part 0, .all]),
        ev (.again 0), ev (.noClient 0), ev (.clientWait 0 [⟨0, 0, 5, 7, 0⟩]),
        ev (.clientEvent 0 8 (fun _ => 0) [.eof] []), ev (.upstreamWait 0 []), ev (.again 0),
        ⟨.accept 5, [.data [4], .eagain, .eagain], []⟩, ⟨.take 0, [], []⟩,
        ⟨.select 0 (.roundRobin 9), [], []⟩, ⟨.connectOk 0 7 9, [], [.all]⟩,
        ev (.clientWait 0 [⟨1, 0, 5, 7, 0⟩]),
        ev (.clientEvent 0 9 (fun _ => 0) [.data [4], .eagain, .eagain] [.all])]
    ∃ n', n.run [] as = some n' ∧ n'.links = [(2, 3), (0, 1)] ∧
      (n'.conns 0).sent = [[8], [9]] ∧ (n'.conns 1).sent = [[1, 2]] ∧ (n'.conns 3).sent = [[4]] ∧
      ∀ l ∈ n'.links, (n'.side l.1 l.2).Delivered ∧ (n'.side l.2 l.1).Delivered := by
  intro c n ev as
  have hrun : (n.run [] as).map (fun n' =>
      (n'.links, (n'.conns 0).sent, (n'.conns 1).sent, (n'.conns 3).sent)) =
      some ([(2, 3), (0, 1)], [[8], [9]], [[1, 2]], [[4]]) := by decide +kernel
  have has : ∀ a ∈ as, a.Clean := by
    simp [as, ev, NetAction.Clean, FailStop, WriteOutcome.accepts]
  obtain ⟨n', hrun, heq⟩ := Option.map_eq_some_iff.mp hrun
  simp only [Prod.mk.injEq] at heq
  exact ⟨n', hrun, heq.1, heq.2.1, heq.2.2.1, heq.2.2.2, (streams_of_run [] _ 1 has hrun).1⟩

end Umicat.Proxy
