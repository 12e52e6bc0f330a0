import Umicat.Config.Parse
import Umicat.Upstream.Lemmas.HashRing
import Umicat.Upstream.Lemmas.Select
import Umicat.Upstream.Theorems.RoundRobin

/-!
# Accepted configurations and the first selection

The parser accepts documents without servers and any weights. Which of them leave the selection
something to select from depends on the policy.
-/

namespace Umicat.Config

open Umicat.Base
open Umicat.Upstream

variable {mem : Nat → Srv} {cs : List Conf}

theorem readRoot_ok {env : Env} {root : Json} {c : Cycle}
    (h : readRoot env mem root = some (.ok c)) :
    ∃ cs, upstreamEntries root = some cs ∧ c.srvs = Upstream.confParse mem cs := by
  simp only [readRoot, Option.bind_eq_bind, Option.bind_eq_some_iff] at h
  obtain ⟨item, -, h⟩ := h
  split at h
  · cases h
  · simp only [Option.bind_eq_some_iff] at h
    obtain ⟨port, -, item', -, h⟩ := h
    split at h
    · cases h
    · simp only [Option.bind_eq_some_iff] at h
      obtain ⟨workers, -, workersN, -, logFile, -, level, -, entries, hentries, h⟩ := h
      cases h
      exact ⟨entries, hentries, rfl⟩

theorem readMode_error {item : List UInt8} {e : ConfError} (h : readMode item = .error e) :
    e = .unknownMode item := by
  unfold readMode at h
  repeat' split at h
  all_goals cases h
  rfl

theorem readPolicy_error {item : List UInt8} {e : ConfError} (h : readPolicy item = .error e) :
    e = .unknownPolicy item := by
  unfold readPolicy at h
  repeat' split at h
  all_goals cases h
  rfl

/-- The parser rejects a tree for its mode or its policy only, and names the text that it found. -/
theorem readRoot_error {env : Env} {root : Json} {e : ConfError}
    (h : readRoot env mem root = some (.error e)) :
    (∃ item, getString root "mode" = some item ∧ e = .unknownMode item) ∨
      ∃ item, getString root "policy" = some item ∧ e = .unknownPolicy item := by
  simp only [readRoot, Option.bind_eq_bind, Option.bind_eq_some_iff] at h
  obtain ⟨item, hmode, h⟩ := h
  split at h
  · next e' he =>
      cases h
      exact Or.inl ⟨item, hmode, readMode_error he⟩
  · simp only [Option.bind_eq_some_iff] at h
    obtain ⟨port, -, item', hpolicy, h⟩ := h
    split at h
    · next e' he =>
        cases h
        exact Or.inr ⟨item', hpolicy, readPolicy_error he⟩
    · simp only [Option.bind_eq_some_iff] at h
      obtain ⟨workers, -, workersN, -, logFile, -, level, -, entries, -, h⟩ := h
      cases h

/-! ## Index selections -/

def str (key value : String) : Json := .node .string (some (text key)) (some (text value)) 0 []

def num (key : String) (n : Int32) : Json := .node .number (some (text key)) none n []

/-- A document with the given policy, mode `tcp` and the given further members. -/
def document (policy : String) (members : List Json) : Json :=
  .node .object none none 0
    (str "mode" "tcp" :: num "localport" 8080 :: str "policy" policy :: num "workers" 2 ::
      str "log_level" "info" :: members)

def upstream (entries : List Json) : Json := .node .array (some (text "upstream")) none 0 entries

end Umicat.Config
