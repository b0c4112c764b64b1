import Mathlib.Data.List.Induction
import Mathlib.Tactic.Common

namespace ManDb

/-- The user and group ids of the process. -/
structure ProcessIds where
  realUid : Nat
  effectiveUid : Nat
  savedUid : Nat
  realGid : Nat
  effectiveGid : Nat
  savedGid : Nat
  deriving DecidableEq, Repr

/-- A process that was just started: the saved ids are the effective ones. -/
def ProcessIds.start (ruid euid rgid egid : Nat) : ProcessIds := ⟨ruid, euid, euid, rgid, egid, egid⟩

/-- `idpriv_temp_drop`: both effective ids become the real ones. -/
def idprivTempDrop (p : ProcessIds) : ProcessIds := { p with effectiveUid := p.realUid, effectiveGid := p.realGid }

/-- `idpriv_temp_restore`: both effective ids become the saved ones. -/
def idprivTempRestore (p : ProcessIds) : ProcessIds :=
  { p with effectiveUid := p.savedUid, effectiveGid := p.savedGid }

/-- The process, the ids the module keeps and `priv_drop_count`. -/
structure SecurityState where
  process : ProcessIds
  ruid : Nat
  euid : Nat
  uid : Nat
  rgid : Nat
  egid : Nat
  gid : Nat
  privDropCount : Nat
  deriving DecidableEq, Repr

def dropEffectivePrivs (s : SecurityState) : SecurityState :=
  let s := if s.uid ≠ s.ruid then { s with process := idprivTempDrop s.process, uid := s.ruid, gid := s.rgid } else s
  { s with privDropCount := s.privDropCount + 1 }

def regainEffectivePrivs (s : SecurityState) : SecurityState :=
  let counted := { s with privDropCount := s.privDropCount - 1 }
  if s.privDropCount ≠ 0 ∧ counted.privDropCount ≠ 0 then counted
  else if counted.uid ≠ counted.euid then
    { counted with process := idprivTempRestore counted.process, uid := counted.euid, gid := counted.egid }
  else counted

def initSecurity (p : ProcessIds) : SecurityState :=
  dropEffectivePrivs
    { process := p
      ruid := p.realUid, uid := p.effectiveUid, euid := p.effectiveUid
      rgid := p.realGid, gid := p.effectiveGid, egid := p.effectiveGid
      privDropCount := 0 }

inductive PrivCall where
  | drop
  | regain
  deriving DecidableEq, Repr

def PrivCall.run (s : SecurityState) : PrivCall → SecurityState
  | drop => dropEffectivePrivs s
  | regain => regainEffectivePrivs s

/-- The state after `init_security` and some calls. -/
def afterCalls (p : ProcessIds) (calls : List PrivCall) : SecurityState := calls.foldl PrivCall.run (initSecurity p)

/-- The drops outstanding after some calls, of which `init_security` makes one. -/
def outstanding (calls : List PrivCall) : Nat :=
  calls.foldl (fun n call => match call with | .drop => n + 1 | .regain => n - 1) 1

/-- The ids in force, as the module and as the process has them. -/
structure InForce (s : SecurityState) (uid gid : Nat) : Prop where
  moduleUid : s.uid = uid
  moduleGid : s.gid = gid
  effectiveUid : s.process.effectiveUid = uid
  effectiveGid : s.process.effectiveGid = gid

/-- The privileges of a process started with some ids are held just while no drop is
outstanding. -/
structure Bracketed (ruid euid rgid egid : Nat) (calls : List PrivCall) (s : SecurityState) : Prop where
  count : s.privDropCount = outstanding calls
  dropped : 0 < s.privDropCount → InForce s ruid rgid
  held : s.privDropCount = 0 → InForce s euid egid
  regains : (regainEffectivePrivs s).process ≠ s.process → s.privDropCount = 1

variable {ruid euid rgid egid : Nat} {calls : List PrivCall} {s : SecurityState}

theorem outstanding_snoc (calls : List PrivCall) (call : PrivCall) :
    outstanding (calls ++ [call]) =
      match call with | .drop => outstanding calls + 1 | .regain => outstanding calls - 1 := by
  simp [outstanding]

theorem afterCalls_snoc (p : ProcessIds) (calls : List PrivCall) (call : PrivCall) :
    afterCalls p (calls ++ [call]) = call.run (afterCalls p calls) := by
  simp [afterCalls]

/-- The ids the module was started with, and those in force. -/
structure Tracks (ruid euid rgid egid : Nat) (s : SecurityState) : Prop where
  started : s.ruid = ruid ∧ s.euid = euid ∧ s.rgid = rgid ∧ s.egid = egid
  process : s.process.realUid = ruid ∧ s.process.realGid = rgid ∧
    s.process.savedUid = euid ∧ s.process.savedGid = egid
  dropped : 0 < s.privDropCount → InForce s ruid rgid
  held : s.privDropCount = 0 → InForce s euid egid

/-- Where the user ids differ, or all ids agree, a drop drops both ids. -/
theorem Tracks.drop (tracks : Tracks ruid euid rgid egid s) (installed : ruid ≠ euid ∨ rgid = egid) :
    Tracks ruid euid rgid egid (dropEffectivePrivs s) := by
  obtain ⟨⟨atRuid, atEuid, atRgid, atEgid⟩, ⟨realUid, realGid, savedUid, savedGid⟩, dropped, held⟩ := tracks
  by_cases same : s.uid = s.ruid
  · have shape : dropEffectivePrivs s = { s with privDropCount := s.privDropCount + 1 } := by
      simp [dropEffectivePrivs, same]
    rw [shape]
    refine ⟨⟨atRuid, atEuid, atRgid, atEgid⟩, ⟨realUid, realGid, savedUid, savedGid⟩, fun _ => ?_, by simp⟩
    rcases Nat.eq_zero_or_pos s.privDropCount with none | some_
    · -- no drop was outstanding, so the user ids agree and so must the group ids
      have now := held none
      have users : ruid = euid := by rw [← now.moduleUid, same, atRuid]
      have groups : rgid = egid := installed.resolve_left (fun differ => differ users)
      rw [users, groups]
      exact ⟨now.moduleUid, now.moduleGid, now.effectiveUid, now.effectiveGid⟩
    · have now := dropped some_
      exact ⟨now.moduleUid, now.moduleGid, now.effectiveUid, now.effectiveGid⟩
  · have shape : dropEffectivePrivs s =
        { s with
          process := idprivTempDrop s.process, uid := s.ruid, gid := s.rgid
          privDropCount := s.privDropCount + 1 } := by
      simp [dropEffectivePrivs, same]
    rw [shape]
    exact ⟨⟨atRuid, atEuid, atRgid, atEgid⟩, ⟨realUid, realGid, savedUid, savedGid⟩,
      fun _ => ⟨atRuid, atRgid, realUid, realGid⟩, by simp⟩

/-- A regain that matches the outermost drop restores both ids. -/
theorem Tracks.regain (tracks : Tracks ruid euid rgid egid s) (installed : ruid ≠ euid ∨ rgid = egid) :
    Tracks ruid euid rgid egid (regainEffectivePrivs s) := by
  obtain ⟨⟨atRuid, atEuid, atRgid, atEgid⟩, ⟨realUid, realGid, savedUid, savedGid⟩, dropped, held⟩ := tracks
  cases count : s.privDropCount with
  | zero =>
    have now := held count
    have same : regainEffectivePrivs s = s := by
      have users : s.uid = s.euid := by rw [now.moduleUid, atEuid]
      cases s
      simp_all [regainEffectivePrivs]
    rw [same]
    exact ⟨⟨atRuid, atEuid, atRgid, atEgid⟩, ⟨realUid, realGid, savedUid, savedGid⟩, dropped, held⟩
  | succ n =>
    have now := dropped (by omega)
    cases n with
    | zero =>
      by_cases same : s.uid = s.euid
      · have shape : regainEffectivePrivs s = { s with privDropCount := 0 } := by
          simp [regainEffectivePrivs, count, same]
        have users : ruid = euid := by rw [← now.moduleUid, same, atEuid]
        have groups : rgid = egid := installed.resolve_left (fun differ => differ users)
        rw [shape]
        refine ⟨⟨atRuid, atEuid, atRgid, atEgid⟩, ⟨realUid, realGid, savedUid, savedGid⟩, by simp, fun _ => ?_⟩
        rw [← users, ← groups]
        exact ⟨now.moduleUid, now.moduleGid, now.effectiveUid, now.effectiveGid⟩
      · have shape : regainEffectivePrivs s =
            { s with process := idprivTempRestore s.process, uid := s.euid, gid := s.egid, privDropCount := 0 } := by
          simp [regainEffectivePrivs, count, same]
        rw [shape]
        exact ⟨⟨atRuid, atEuid, atRgid, atEgid⟩, ⟨realUid, realGid, savedUid, savedGid⟩, by simp,
          fun _ => ⟨atEuid, atEgid, savedUid, savedGid⟩⟩
    | succ n =>
      have shape : regainEffectivePrivs s = { s with privDropCount := n + 1 } := by
        simp [regainEffectivePrivs, count]
      rw [shape]
      exact ⟨⟨atRuid, atEuid, atRgid, atEgid⟩, ⟨realUid, realGid, savedUid, savedGid⟩,
        fun _ => ⟨now.moduleUid, now.moduleGid, now.effectiveUid, now.effectiveGid⟩, by simp⟩

/-- Only a regain that matches the outermost drop changes the process. -/
theorem Tracks.regains (tracks : Tracks ruid euid rgid egid s)
    (restores : (regainEffectivePrivs s).process ≠ s.process) : s.privDropCount = 1 := by
  by_contra other
  refine restores ?_
  cases count : s.privDropCount with
  | zero =>
    have users : s.uid = s.euid := by rw [(tracks.held count).moduleUid, tracks.started.2.1]
    simp [regainEffectivePrivs, count, users]
  | succ n =>
    have more : n ≠ 0 := by omega
    simp [regainEffectivePrivs, count, more]

theorem initSecurity_tracks (installed : ruid ≠ euid ∨ rgid = egid) :
    Tracks ruid euid rgid egid (initSecurity (.start ruid euid rgid egid)) :=
  Tracks.drop ⟨⟨rfl, rfl, rfl, rfl⟩, ⟨rfl, rfl, rfl, rfl⟩, by simp, fun _ => ⟨rfl, rfl, rfl, rfl⟩⟩ installed

theorem afterCalls_tracks (installed : ruid ≠ euid ∨ rgid = egid) (calls : List PrivCall) :
    Tracks ruid euid rgid egid (afterCalls (.start ruid euid rgid egid) calls) := by
  induction calls using List.reverseRecOn with
  | nil => exact initSecurity_tracks installed
  | append_singleton calls call ih =>
    rw [afterCalls_snoc]
    cases call with
    | drop => exact ih.drop installed
    | regain => exact ih.regain installed

theorem drop_count (s : SecurityState) : (dropEffectivePrivs s).privDropCount = s.privDropCount + 1 := by
  by_cases same : s.uid = s.ruid <;> simp [dropEffectivePrivs, same]

theorem regain_count (s : SecurityState) : (regainEffectivePrivs s).privDropCount = s.privDropCount - 1 := by
  unfold regainEffectivePrivs
  by_cases inner : s.privDropCount ≠ 0 ∧ s.privDropCount - 1 ≠ 0
  · simp [inner]
  · by_cases same : s.uid = s.euid <;> simp [inner, same]

theorem afterCalls_count (p : ProcessIds) (calls : List PrivCall) :
    (afterCalls p calls).privDropCount = outstanding calls := by
  induction calls using List.reverseRecOn with
  | nil => exact drop_count _
  | append_singleton calls call ih =>
    rw [afterCalls_snoc, outstanding_snoc, ← ih]
    cases call with
    | drop => exact drop_count _
    | regain => exact regain_count _

/-- Privileges are bracketed in every run if and only if the program is not installed
with a set-group-id bit alone. -/
theorem privileges_bracketed_iff (ruid euid rgid egid : Nat) :
    (∀ calls, Bracketed ruid euid rgid egid calls (afterCalls (.start ruid euid rgid egid) calls)) ↔
      ruid ≠ euid ∨ rgid = egid := by
  constructor
  · intro bracketed
    by_contra neither
    obtain ⟨users, groups⟩ : ruid = euid ∧ rgid ≠ egid := by simpa using neither
    subst users
    have now := (bracketed []).dropped (by rw [afterCalls_count]; decide)
    have egid_now : (afterCalls (.start ruid ruid rgid egid) []).gid = egid := by
      simp [afterCalls, initSecurity, dropEffectivePrivs, ProcessIds.start]
    exact groups (by rw [← now.moduleGid, egid_now])
  · intro installed calls
    have tracks := afterCalls_tracks installed calls
    exact ⟨afterCalls_count _ _, tracks.dropped, tracks.held, tracks.regains⟩

/-- With a set-group-id bit alone the group is never dropped. -/
theorem privileges_keep_group :
    ¬∀ ruid euid rgid egid calls,
      Bracketed ruid euid rgid egid calls (afterCalls (.start ruid euid rgid egid) calls) := by
  intro bracketed
  have dropped := (bracketed 1000 1000 1000 15 []).dropped (by decide)
  exact absurd dropped.effectiveGid (by decide)

end ManDb
