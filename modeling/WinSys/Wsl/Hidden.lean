import WinSys.Wsl.Reading

/-!
# Who is left out

The pids that `hiddenPids` finds among the rows read are those of the helper, its children and its
session, as the list of processes has them.
-/

namespace WinSys.Wsl

open Infra

namespace Listing

variable {conv : Conversions} {system : WslSystem} {l : Listing} {p q : LinuxProcess}

/-- The rows as the stat section leaves them. -/
def statRows (l : Listing) (conv : Conversions) (pageSize : UInt32) : List WslProcess :=
  l.processes.map fun p => p.stat.read conv pageSize p.pid p.comm

theorem eq_of_pid (hp : p ∈ l.processes) (hq : q ∈ l.processes) (h : p.pid = q.pid) : p = q :=
  List.inj_on_of_nodup_map l.distinct hp hq h

/-- A process is found by its ID. -/
theorem findProcess_statRows {pageSize pid : UInt32} :
    (findProcess (l.statRows conv pageSize) pid = none ∧ ∀ p ∈ l.processes, p.pid ≠ pid)
      ∨ ∃ p ∈ l.processes, p.pid = pid ∧ findProcess (l.statRows conv pageSize) pid
        = some (p.stat.read conv pageSize p.pid p.comm) := by
  unfold findProcess statRows
  rw [List.find?_map]
  cases hfind : l.processes.find? ((fun row : WslProcess => decide (row.pid = pid))
      ∘ fun p => p.stat.read conv pageSize p.pid p.comm) with
  | none =>
    refine Or.inl ⟨rfl, fun p hp heq => ?_⟩
    have hnot := List.find?_eq_none.mp hfind p hp
    exact hnot (decide_eq_true heq)
  | some p =>
    have hpid := List.find?_some hfind
    exact Or.inr ⟨p, List.mem_of_find?_eq_some hfind, of_decide_eq_true hpid, rfl⟩

theorem isRelay_iff : l.isRelay conv system p = true ↔ ∃ helper ∈ l.processes,
    helper.pid = system.helperPid ∧ helper.stat.ppid = p.pid
      ∧ relayPrefix <+: conv.fromUtf8 p.comm := by
  simp [isRelay, List.any_eq_true, and_assoc]

theorem isLeader_iff : l.isLeader conv system p = true ↔ ∃ relay ∈ l.processes,
    l.isRelay conv system relay = true ∧ relay.stat.ppid = p.pid
      ∧ conv.fromUtf8 p.comm = sessionLeader := by
  simp [isLeader, List.any_eq_true, and_assoc]

/-- The session of the rows is the list's. -/
theorem mem_sessionPids (hp : p ∈ l.processes) :
    p.pid ∈ sessionPids (l.statRows conv system.pageSize) system.helperPid
      ↔ l.isRelay conv system p = true ∨ l.isLeader conv system p = true := by
  rw [isRelay_iff, isLeader_iff]
  unfold sessionPids
  rcases @findProcess_statRows conv l system.pageSize system.helperPid
    with ⟨hnone, hno⟩ | ⟨helper, hhelper, hhelperPid, hsome⟩
  · rw [hnone]
    refine iff_of_false List.not_mem_nil ?_
    rintro (⟨q, hq, hpid, -⟩ | ⟨relay, -, hrelay, -⟩)
    · exact hno q hq hpid
    · obtain ⟨q, hq, hpid, -⟩ := isRelay_iff.mp hrelay
      exact hno q hq hpid
  have hread : ∀ q : LinuxProcess,
      (q.stat.read conv system.pageSize q.pid q.comm).parentPid = q.stat.ppid
        ∧ (q.stat.read conv system.pageSize q.pid q.comm).pid = q.pid
        ∧ (q.stat.read conv system.pageSize q.pid q.comm).name = conv.fromUtf8 q.comm :=
    fun _ => ⟨rfl, rfl, rfl⟩
  simp only [hsome, hread]
  have honly : ∀ q ∈ l.processes, q.pid = system.helperPid → q = helper := fun q hq hpid =>
    eq_of_pid hq hhelper (hpid.trans hhelperPid.symm)
  rcases @findProcess_statRows conv l system.pageSize helper.stat.ppid
    with ⟨hnone, hno⟩ | ⟨relay, hrelay, hrelayPid, hsome⟩
  · rw [hnone]
    refine iff_of_false List.not_mem_nil ?_
    rintro (⟨q, hq, hpid, hparent, -⟩ | ⟨relay, hrelay, hisRelay, -⟩)
    · exact hno p hp (by rw [← hparent, honly q hq hpid])
    · obtain ⟨q, hq, hpid, hparent, -⟩ := isRelay_iff.mp hisRelay
      exact hno relay hrelay (by rw [← hparent, honly q hq hpid])
  simp only [hsome, hread]
  have honlyRelay : ∀ q ∈ l.processes, l.isRelay conv system q = true →
      q = relay ∧ relayPrefix <+: conv.fromUtf8 relay.comm := by
    intro q hq hisRelay
    obtain ⟨h, hh, hpid, hparent, hname⟩ := isRelay_iff.mp hisRelay
    obtain rfl := honly h hh hpid
    obtain rfl := eq_of_pid hq hrelay (hparent.symm.trans hrelayPid.symm)
    exact ⟨rfl, hname⟩
  by_cases hname : relayPrefix <+: conv.fromUtf8 relay.comm
  · rw [if_pos hname]
    have hisRelay : l.isRelay conv system relay = true :=
      isRelay_iff.mpr ⟨helper, hhelper, hhelperPid, hrelayPid.symm, hname⟩
    have hrelayIff : p.pid = relay.pid ↔ ∃ helper ∈ l.processes, helper.pid = system.helperPid
        ∧ helper.stat.ppid = p.pid ∧ relayPrefix <+: conv.fromUtf8 p.comm := by
      constructor
      · intro hpid
        obtain rfl := eq_of_pid hp hrelay hpid
        exact isRelay_iff.mp hisRelay
      · intro h
        rw [(honlyRelay p hp (isRelay_iff.mpr h)).1]
    rcases @findProcess_statRows conv l system.pageSize relay.stat.ppid
      with ⟨hnone, hno⟩ | ⟨leader, hleader, hleaderPid, hsome⟩
    · rw [hnone]
      show p.pid ∈ [relay.pid] ↔ _
      rw [List.mem_singleton, hrelayIff]
      refine ⟨Or.inl, ?_⟩
      rintro (h | ⟨q, hq, hqRelay, hparent, -⟩)
      · exact h
      · obtain ⟨rfl, -⟩ := honlyRelay q hq hqRelay
        exact absurd hparent.symm (hno p hp)
    · rw [hsome]
      show p.pid ∈ (if conv.fromUtf8 leader.comm = sessionLeader then [relay.pid, leader.pid]
        else [relay.pid]) ↔ _
      by_cases hleaderName : conv.fromUtf8 leader.comm = sessionLeader
      · rw [if_pos hleaderName, List.mem_cons, List.mem_singleton, hrelayIff]
        refine or_congr Iff.rfl ?_
        constructor
        · intro hpid
          obtain rfl := eq_of_pid hp hleader hpid
          exact ⟨relay, hrelay, hisRelay, hleaderPid.symm, hleaderName⟩
        · rintro ⟨q, hq, hqRelay, hparent, -⟩
          obtain ⟨rfl, -⟩ := honlyRelay q hq hqRelay
          exact hparent.symm.trans hleaderPid.symm
      · rw [if_neg hleaderName, List.mem_singleton, hrelayIff]
        refine ⟨Or.inl, ?_⟩
        rintro (h | ⟨q, hq, hqRelay, hparent, hpName⟩)
        · exact h
        · obtain ⟨rfl, -⟩ := honlyRelay q hq hqRelay
          obtain rfl := eq_of_pid hp hleader (hparent.symm.trans hleaderPid.symm)
          exact absurd hpName hleaderName
  · rw [if_neg hname]
    refine iff_of_false List.not_mem_nil ?_
    rintro (h | ⟨q, hq, hqRelay, -⟩)
    · exact hname (honlyRelay p hp (isRelay_iff.mpr h)).2
    · exact hname (honlyRelay q hq hqRelay).2

/-- **The rows left out are those of the hidden processes.** -/
theorem mem_hiddenPids (hp : p ∈ l.processes) :
    p.pid ∈ hiddenPids (l.statRows conv system.pageSize) system.helperPid
      ↔ l.isHidden conv system p = true := by
  unfold hiddenPids isHidden
  by_cases hzero : system.helperPid = 0
  · simp [hzero]
  · have hchild : p.pid ∈ ((l.statRows conv system.pageSize).filter fun row =>
        row.parentPid = system.helperPid).map WslProcess.pid ↔ p.stat.ppid = system.helperPid := by
      simp only [statRows, List.mem_map, List.mem_filter, decide_eq_true_eq]
      constructor
      · rintro ⟨row, ⟨⟨q, hq, rfl⟩, hparent⟩, hpid⟩
        obtain rfl := eq_of_pid hq hp hpid
        exact hparent
      · intro hparent
        exact ⟨_, ⟨⟨p, hp, rfl⟩, hparent⟩, rfl⟩
    rw [if_neg hzero, List.cons_append, List.mem_cons, List.mem_append, hchild, mem_sessionPids hp]
    simp [hzero, or_assoc]

end Listing

end WinSys.Wsl
