import Umicat.Upstream.Run

/-!
# What a step leaves alone
-/

namespace Umicat.Upstream

structure Srv.Static where
  upstreamIp : List UInt8
  upstreamPort : UInt64
  weight : Int
  trafficWindow : UInt64
  maxFails : UInt64
  failTimeout : UInt64
  isFallback : Bool
  checkTimeout : UInt64
  checkFall : UInt64
  checkRise : UInt64

def Srv.static (s : Srv) : Srv.Static where
  upstreamIp := s.upstreamIp
  upstreamPort := s.upstreamPort
  weight := s.weight
  trafficWindow := s.trafficWindow
  maxFails := s.maxFails
  failTimeout := s.failTimeout
  isFallback := s.isFallback
  checkTimeout := s.checkTimeout
  checkFall := s.checkFall
  checkRise := s.checkRise

/-! ## Frames

Each operation is a record update of few fields, so every other field is as it was. -/

theorem Srv.bump_frame (now : UInt64) (s : Srv) :
    ∃ w, s.bump now = { s with effectiveWeight := w } := by
  unfold Srv.bump
  split
  · exact ⟨_, rfl⟩
  · exact ⟨s.effectiveWeight, rfl⟩

theorem Srv.connectOk_eq (s : Srv) :
    s.connectOk = { s with
      isDown := false
      fails := if s.isDown then 0 else s.fails
      effectiveWeight :=
        if s.effectiveWeight < s.weight then s.effectiveWeight + 1 else s.effectiveWeight
      connectionN := s.connectionN + 1 } := by
  unfold Srv.connectOk
  cases hdown : s.isDown with
  | true =>
      by_cases hw : s.effectiveWeight < s.weight <;> simp [hw]
  | false =>
      by_cases hw : s.effectiveWeight < s.weight <;> simp [hw, hdown]

theorem Srv.connectFail_frame (now : UInt64) (s : Srv) :
    ∃ w t n d, s.connectFail now =
      { s with effectiveWeight := w, lastFailTime := t, fails := n, isDown := d } := by
  have hcount : ∃ w t n, s.countFail now =
      { s with effectiveWeight := w, lastFailTime := t, fails := n } := by
    unfold Srv.countFail
    split
    · exact ⟨_, _, _, rfl⟩
    · exact ⟨_, s.lastFailTime, _, rfl⟩
  obtain ⟨w, t, n, h⟩ := hcount
  unfold Srv.connectFail
  rw [h]
  simp only
  split
  · exact ⟨_, _, _, _, rfl⟩
  · exact ⟨w, t, n, s.isDown, rfl⟩

theorem Srv.checkTcpCycle_frame (p : Probe) (s : Srv) :
    ∃ w d n x y, s.checkTcpCycle p = { s with
      effectiveWeight := w, isDown := d, fails := n, checkFails := x, checkSuccesses := y } := by
  unfold Srv.checkTcpCycle
  split
  · unfold Srv.checkOk
    simp only
    split
    · exact ⟨_, _, _, _, _, rfl⟩
    · exact ⟨s.effectiveWeight, s.isDown, s.fails, s.checkFails, _, rfl⟩
  · unfold Srv.checkFail
    simp only
    split
    · exact ⟨_, _, _, _, _, rfl⟩
    · exact ⟨s.effectiveWeight, s.isDown, s.fails, _, s.checkSuccesses, rfl⟩
  · exact ⟨s.effectiveWeight, s.isDown, s.fails, s.checkFails, s.checkSuccesses, rfl⟩

/-! ## The configured part -/

theorem Srv.static_bump (now : UInt64) (s : Srv) : (s.bump now).static = s.static := by
  obtain ⟨w, h⟩ := s.bump_frame now
  rw [h]
  rfl

theorem Srv.static_connectOk (s : Srv) : s.connectOk.static = s.static := by
  rw [s.connectOk_eq]
  rfl

theorem Srv.static_connectFail (now : UInt64) (s : Srv) :
    (s.connectFail now).static = s.static := by
  obtain ⟨w, t, n, d, h⟩ := s.connectFail_frame now
  rw [h]
  rfl

theorem Srv.static_checkTcpCycle (p : Probe) (s : Srv) :
    (s.checkTcpCycle p).static = s.static := by
  obtain ⟨w, d, n, x, y, h⟩ := s.checkTcpCycle_frame p
  rw [h]
  rfl

/-! ## Counters -/

theorem Srv.connectionN_bump (now : UInt64) (s : Srv) :
    (s.bump now).connectionN = s.connectionN := by
  obtain ⟨w, h⟩ := s.bump_frame now
  rw [h]

theorem Srv.connectionN_connectOk (s : Srv) : s.connectOk.connectionN = s.connectionN + 1 := by
  rw [s.connectOk_eq]

theorem Srv.connectionN_connectFail (now : UInt64) (s : Srv) :
    (s.connectFail now).connectionN = s.connectionN := by
  obtain ⟨w, t, n, d, h⟩ := s.connectFail_frame now
  rw [h]

theorem Srv.connectionN_checkTcpCycle (p : Probe) (s : Srv) :
    (s.checkTcpCycle p).connectionN = s.connectionN := by
  obtain ⟨w, d, n, x, y, h⟩ := s.checkTcpCycle_frame p
  rw [h]

/-- A probe is no failed connection. -/
theorem Srv.lastFailTime_checkTcpCycle (p : Probe) (s : Srv) :
    (s.checkTcpCycle p).lastFailTime = s.lastFailTime := by
  obtain ⟨w, d, n, x, y, h⟩ := s.checkTcpCycle_frame p
  rw [h]

end Umicat.Upstream
