import WinSys.Driver.Control
import Mathlib.Data.List.Infix

/-!
# What the driver touches

* `Safe`: reads stay in the request, writes in the buffer, and what is reported was written
* `NameEnds`: the name of an open by name ends in the request
* `safe_iff_nameEnds`
-/

namespace WinSys.Driver

open Infra

/-! ## what a request should do -/

/-- What is reported: nothing after a failure, and after a success the size of what was just stored
at the buffer's start. -/
def Reported (r : Request) (o : Outcome) : Prop :=
  ∃ status information, o.completed = some (status, information)
    ∧ (information ≠ 0 ↔ success status = true)
    ∧ (success status = true → information.toNat ≤ r.outputLength.toNat
      ∧ (information = 4 ∨ information = 8)
      ∧ o.accesses.getLast? = some ⟨true, 0, information.toNat⟩)

structure Safe (r : Request) (o : Outcome) : Prop where
  reads : ∀ a ∈ o.accesses, a.write = false → a.offset + a.size ≤ r.inputLength.toNat
  writes : ∀ a ∈ o.accesses, a.write = true → a.offset + a.size ≤ r.buffer.length
  reported : Reported r o

/-- An open by name that gets to the name. -/
structure Request.Named (r : Request) : Prop where
  code : r.controlCode = ioctlOpenObjectByName
  output : 8 ≤ r.outputLength
  input : 8 ≤ r.inputLength ∧ r.inputLength ≤ 2048
  typeIndex : u16 (r.buffer.drop 4) ≤ 255

/-- The name ends before the request does: the request has an even length, or a character is zero
before the terminator's, which is half of one. -/
def NameEnds (r : Request) : Prop :=
  r.Named → r.inputLength.toNat % 2 = 0
    ∨ 0 ∈ units ((r.buffer.take (r.inputLength.toNat - 3)).drop 6)
    ∨ r.buffer[r.inputLength.toNat - 3]? = some 0

/-! ## the scan -/

/-- The scan stays in `size` bytes exactly if there is a zero in them. -/
theorem scanName_inside {bytes : Bytes} {offset size : ℕ} (h : size ≤ bytes.length) :
    (∀ a ∈ (scanName bytes offset).1, a.offset + a.size ≤ offset + size)
      ↔ 0 ∈ units (bytes.take size) := by
  induction bytes, offset using scanName.induct generalizing size with
  | case1 a b rest offset hzero =>
    rw [scanName, if_pos hzero]
    cases size with
    | zero => simp [units]
    | succ size =>
      cases size with
      | zero => simp [units]
      | succ size => simp [units, hzero]
  | case2 a b rest offset hzero ih =>
    rw [scanName, if_neg hzero]
    cases size with
    | zero => simp [units]
    | succ size =>
      cases size with
      | zero => simp [units]
      | succ size =>
        have hle : size ≤ rest.length := by
          simp only [List.length_cons] at h
          omega
        have hrest := ih hle
        have hsame : offset + 2 + size = offset + (size + 1 + 1) := by omega
        rw [hsame] at hrest
        have hne : ¬ 0 = u16 [a, b] := fun heq => hzero heq.symm
        simp only [List.mem_cons, forall_eq_or_imp, List.take_succ_cons, units, hne, false_or]
        rw [← hrest]
        constructor
        · exact fun hall => hall.2
        · exact fun hall => ⟨by omega, hall⟩
  | case3 bytes offset hshort =>
    have hlength : bytes.length < 2 := by
      cases bytes with
      | nil => simp
      | cons a bytes =>
        cases bytes with
        | nil => simp
        | cons b bytes => exact absurd rfl (hshort a b bytes)
    rw [scanName]
    · have htake : units (bytes.take size) = [] := by
        cases bytes with
        | nil => simp [units]
        | cons a bytes =>
          cases bytes with
          | nil => cases size <;> simp [units]
          | cons b bytes => simp at hlength
      rw [htake]
      simp only [List.mem_singleton, forall_eq, List.not_mem_nil, iff_false]
      omega
    · exact hshort

/-- Then it finds a name. -/
theorem scanName_some {bytes : Bytes} {offset size : ℕ} (h : 0 ∈ units (bytes.take size)) :
    ∃ name, (scanName bytes offset).2 = some name ∧ 2 * name.length + 2 ≤ size := by
  induction bytes, offset using scanName.induct generalizing size with
  | case1 a b rest offset hzero =>
    rw [scanName, if_pos hzero]
    refine ⟨[], rfl, ?_⟩
    cases size with
    | zero => simp [units] at h
    | succ size =>
      cases size with
      | zero => simp [units] at h
      | succ size => simp
  | case2 a b rest offset hzero ih =>
    rw [scanName, if_neg hzero]
    cases size with
    | zero => simp [units] at h
    | succ size =>
      cases size with
      | zero => simp [units] at h
      | succ size =>
        have hne : ¬ 0 = u16 [a, b] := fun heq => hzero heq.symm
        simp only [List.take_succ_cons, units, List.mem_cons, hne, false_or] at h
        obtain ⟨name, hname, hle⟩ := ih h
        refine ⟨u16 [a, b] :: name, by rw [hname]; rfl, ?_⟩
        simp only [List.length_cons]
        omega
  | case3 bytes offset hshort =>
    cases bytes with
    | nil => simp [units] at h
    | cons a bytes =>
      cases bytes with
      | nil => cases size <;> simp [units] at h
      | cons b bytes => exact absurd rfl (hshort a b bytes)

theorem scanName_reads {bytes : Bytes} {offset : ℕ} :
    ∀ a ∈ (scanName bytes offset).1, a.write = false := by
  induction bytes, offset using scanName.induct with
  | case1 a b rest offset hzero =>
    rw [scanName, if_pos hzero]
    simp
  | case2 a b rest offset hzero ih =>
    rw [scanName, if_neg hzero]
    intro access haccess
    rcases List.mem_cons.mp haccess with rfl | hrest
    · rfl
    · exact ih access hrest
  | case3 bytes offset hshort =>
    rw [scanName]
    · simp
    · exact hshort

/-! ## the terminator -/

theorem u16_low {c : UInt8} : u16 [c, 0] = 0 ↔ c = 0 := by
  constructor
  · intro h
    have hvalue : c.toNat % 65536 = 0 := by simpa [u16, leNat] using congrArg UInt16.toNat h
    have hlt := c.toNat_lt
    exact UInt8.toNat_inj.mp (by simp only [UInt8.toNat_zero]; omega)
  · rintro rfl
    decide

/-- What the terminator leaves of the name. -/
theorem terminated {buffer after : Bytes} {n : ℕ} (hn : 8 ≤ n) (hle : n ≤ buffer.length) :
    ((((buffer ++ after).take (n - 2) ++ [0, 0] ++ (buffer ++ after).drop (n - 2 + 2)).drop 6).take
        (n - 6)) = (buffer.take (n - 2)).drop 6 ++ [0, 0] := by
  have htake : (buffer ++ after).take (n - 2) = buffer.take (n - 2) :=
    List.take_append_of_le_length (by omega)
  have hsix : 6 ≤ (buffer.take (n - 2)).length := by
    rw [List.length_take]
    omega
  rw [htake, List.append_assoc, List.drop_append_of_le_length hsix, ← List.append_assoc]
  refine List.take_left' ?_
  rw [List.length_append, List.length_drop, List.length_take]
  simp only [List.length_cons, List.length_nil]
  omega

/-- It is a character, if the length is even. -/
theorem zero_mem_terminated {buffer : Bytes} {n : ℕ} (hn : 8 ≤ n) (hle : n ≤ buffer.length) :
    0 ∈ units ((buffer.take (n - 2)).drop 6 ++ [0, 0])
      ↔ n % 2 = 0 ∨ 0 ∈ units ((buffer.take (n - 3)).drop 6) ∨ buffer[n - 3]? = some 0 := by
  by_cases heven : n % 2 = 0
  · have hlength : ((buffer.take (n - 2)).drop 6).length % 2 = 0 := by
      rw [List.length_drop, List.length_take]
      omega
    rw [units_append hlength]
    simp only [heven, true_or, iff_true, List.mem_append]
    exact Or.inr (by decide)
  · have hlt : n - 3 < buffer.length := by omega
    have hsplit : (buffer.take (n - 2)).drop 6 ++ [0, 0]
        = (buffer.take (n - 3)).drop 6 ++ [buffer[n - 3], 0, 0] := by
      have hsucc : n - 2 = n - 3 + 1 := by omega
      have hsix : 6 ≤ (buffer.take (n - 3)).length := by
        rw [List.length_take]
        omega
      rw [hsucc, List.take_succ_eq_append_getElem hlt, List.drop_append_of_le_length hsix]
      simp
    have hlength : ((buffer.take (n - 3)).drop 6).length % 2 = 0 := by
      rw [List.length_drop, List.length_take]
      omega
    rw [hsplit, units_append hlength, List.mem_append, List.getElem?_eq_getElem hlt]
    simp only [heven, false_or, units, List.mem_singleton, Option.some.injEq]
    rw [eq_comm, u16_low]

/-! ## serving a request -/

/-- Accesses that stay where they should. -/
structure Inside (r : Request) (accesses : List Access) : Prop where
  reads : ∀ a ∈ accesses, a.write = false → a.offset + a.size ≤ r.inputLength.toNat
  writes : ∀ a ∈ accesses, a.write = true → a.offset + a.size ≤ r.buffer.length

section Serving

variable {k : Kernel} {r : Request} {p : Irp}

theorem Inside.start (r : Request) : Inside r r.start.accesses where
  reads a h := by cases h
  writes a h := by cases h

theorem Inside.read (h : Inside r p.accesses) {offset size : ℕ}
    (hsize : offset + size ≤ r.inputLength.toNat) : Inside r (p.read offset size).accesses := by
  constructor
  · intro a ha hw
    rcases List.mem_append.mp ha with hold | hnew
    · exact h.reads a hold hw
    · rw [List.mem_singleton.mp hnew]
      exact hsize
  · intro a ha hw
    rcases List.mem_append.mp ha with hold | hnew
    · exact h.writes a hold hw
    · rw [List.mem_singleton.mp hnew] at hw
      cases hw

theorem Inside.write (h : Inside r p.accesses) {offset : ℕ} {bytes : Bytes}
    (hsize : offset + bytes.length ≤ r.buffer.length) :
    Inside r (p.write offset bytes).accesses := by
  constructor
  · intro a ha hw
    rcases List.mem_append.mp ha with hold | hnew
    · exact h.reads a hold hw
    · rw [List.mem_singleton.mp hnew] at hw
      cases hw
  · intro a ha hw
    rcases List.mem_append.mp ha with hold | hnew
    · exact h.writes a hold hw
    · rw [List.mem_singleton.mp hnew]
      exact hsize

/-- A failed request reports nothing. -/
theorem Inside.failed (h : Inside r p.accesses) {status : UInt32} (hs : success status = false) :
    Safe r (p.complete status 0) :=
  ⟨h.reads, h.writes, status, 0, rfl, by simp [hs], by simp [hs]⟩

/-- A request for a handle reports the handle, or its failure. -/
theorem Inside.finish (h : Inside r p.accesses) (hout : 8 ≤ r.outputLength)
    (result : UInt32 × UInt64) : Safe r (p.finish result) := by
  have hlength : 8 ≤ r.outputLength.toNat := UInt32.le_iff_toNat_le.mp hout
  unfold Irp.finish
  by_cases hs : success result.1 = true
  · rw [if_pos hs]
    have hinside : Inside r (p.write 0 (leBytes 8 result.2.toNat)).accesses := by
      refine h.write ?_
      rw [length_leBytes, r.size]
      omega
    refine ⟨hinside.reads, hinside.writes, result.1, 8, rfl, by simp [hs], fun _ => ?_⟩
    refine ⟨hlength, Or.inr rfl, ?_⟩
    show (p.accesses ++ [_]).getLast? = _
    rw [List.getLast?_concat, length_leBytes]
    rfl
  · rw [if_neg hs]
    exact h.failed (by simpa using hs)

theorem getVersion_safe (r : Request) : Safe r (getVersion r) := by
  unfold getVersion
  split
  · exact (Inside.start r).failed (by decide)
  · next hgood =>
    have hout : 4 ≤ r.outputLength := UInt32.not_lt.mp fun hlt => hgood (Or.inr hlt)
    have hlength : 4 ≤ r.outputLength.toNat := UInt32.le_iff_toNat_le.mp hout
    have hinside : Inside r (r.start.write 0 (leBytes 4 kwinsysVersion.toNat)).accesses := by
      refine (Inside.start r).write ?_
      rw [length_leBytes, r.size]
      omega
    exact ⟨hinside.reads, hinside.writes, statusSuccess, 4, rfl, by decide,
      fun _ => ⟨hlength, Or.inl rfl, rfl⟩⟩

theorem dupHandle_safe (k : Kernel) (r : Request) : Safe r (dupHandle k r) := by
  unfold dupHandle
  split
  · exact (Inside.start r).failed (by decide)
  · split
    · exact (Inside.start r).failed (by decide)
    · next hgood =>
      have hin : 16 ≤ r.inputLength.toNat := UInt32.le_iff_toNat_le.mp
        (UInt32.not_lt.mp fun hlt => hgood (Or.inl hlt))
      have hout : 8 ≤ r.outputLength := UInt32.not_lt.mp fun hlt => hgood (Or.inr hlt)
      have hpid : Inside r (r.start.read 4 4).accesses := (Inside.start r).read (by omega)
      simp only
      split
      · next hfailed => exact (hpid.read (by omega)).failed (by simpa using hfailed)
      · exact (((hpid.read (by omega)).read (by omega)).read (by omega)).finish hout _

theorem openProcessThread_safe (k : Kernel) (r : Request) : Safe r (openProcessThread k r) := by
  unfold openProcessThread
  split
  · exact (Inside.start r).failed (by decide)
  · split
    · exact (Inside.start r).failed (by decide)
    · next hgood =>
      have hin : 8 ≤ r.inputLength.toNat := UInt32.le_iff_toNat_le.mp
        (UInt32.not_lt.mp fun hlt => hgood (Or.inl hlt))
      have hout : 8 ≤ r.outputLength := UInt32.not_lt.mp fun hlt => hgood (Or.inr hlt)
      have hread : Inside r ((r.start.read 0 4).read 4 4).accesses :=
        ((Inside.start r).read (by omega)).read (by omega)
      simp only
      split
      · exact hread.finish hout _
      · exact hread.finish hout _

theorem openNamed_safe (h : Inside r p.accesses) (hout : 8 ≤ r.outputLength) {type : UInt64}
    {name : WString} (hname : 6 + 2 * name.length ≤ r.inputLength.toNat) :
    Safe r (openNamed k p type name) := by
  have hread : Inside r ((p.read 0 4).read 6 (2 * name.length)).accesses :=
    (h.read (by omega)).read hname
  unfold openNamed
  simp only
  split
  · exact h.failed (by decide)
  · split
    · exact hread.finish hout _
    · split
      · exact hread.finish hout _
      · split
        · exact hread.finish hout _
        · exact h.failed (by decide)

/-- An open by name has the accesses before it. -/
theorem openNamed_accesses {type : UInt64} {name : WString} {a : Access} (h : a ∈ p.accesses) :
    a ∈ (openNamed k p type name).accesses := by
  have hfinish : ∀ result, a ∈ (((p.read 0 4).read 6 (2 * name.length)).finish result).accesses := by
    intro result
    unfold Irp.finish
    split
    · simp [Irp.write, Irp.read, Irp.complete, h]
    · simp [Irp.read, Irp.complete, h]
  unfold openNamed
  simp only
  split
  · exact h
  · split
    · exact hfinish _
    · split
      · exact hfinish _
      · split
        · exact hfinish _
        · exact h

end Serving

section Naming

variable {k : Kernel} {r : Request}

/-- An open by name up to the name. -/
def Request.terminate (r : Request) : Irp :=
  (r.start.read 4 2).write (r.inputLength.toNat - 2) [0, 0]

def Request.scanned (r : Request) : List Access × Option WString :=
  scanName (r.terminate.memory.drop 6) 6

theorem Request.Named.length_le (h : r.Named) :
    8 ≤ r.inputLength.toNat ∧ r.inputLength.toNat ≤ r.buffer.length := by
  have hin : 8 ≤ r.inputLength.toNat := UInt32.le_iff_toNat_le.mp h.input.1
  rw [r.size]
  omega

theorem Request.Named.terminate_inside (h : r.Named) : Inside r r.terminate.accesses := by
  obtain ⟨hin, hle⟩ := h.length_le
  refine ((Inside.start r).read (by omega)).write ?_
  simp only [List.length_cons, List.length_nil]
  omega

/-- The scan stays in the request exactly if the name ends there. -/
theorem Request.Named.scan_inside (h : r.Named) :
    (∀ a ∈ r.scanned.1, a.offset + a.size ≤ r.inputLength.toNat)
      ↔ 0 ∈ units ((r.terminate.memory.drop 6).take (r.inputLength.toNat - 6)) := by
  obtain ⟨hin, hle⟩ := h.length_le
  have hsize : r.inputLength.toNat - 6 ≤ (r.terminate.memory.drop 6).length := by
    simp only [Request.terminate, Irp.write, Irp.read, Request.start, List.length_drop,
      List.length_append, List.length_take, List.length_cons, List.length_nil]
    omega
  have hinside := @scanName_inside (r.terminate.memory.drop 6) 6 _ hsize
  have hsame : 6 + (r.inputLength.toNat - 6) = r.inputLength.toNat := by omega
  rw [hsame] at hinside
  exact hinside

theorem Request.Named.zero_mem (h : r.Named) :
    0 ∈ units ((r.terminate.memory.drop 6).take (r.inputLength.toNat - 6))
      ↔ r.inputLength.toNat % 2 = 0
        ∨ 0 ∈ units ((r.buffer.take (r.inputLength.toNat - 3)).drop 6)
        ∨ r.buffer[r.inputLength.toNat - 3]? = some 0 := by
  obtain ⟨hin, hle⟩ := h.length_le
  rw [← zero_mem_terminated hin hle, ← @terminated r.buffer r.after _ hin hle]
  rfl

/-- The checks that an open by name makes first. -/
theorem openObjectByName_checks : r.Named ↔ r.controlCode = ioctlOpenObjectByName
    ∧ ¬ (r.buffer = [] ∨ r.outputLength < 8 ∨ r.inputLength < 8 ∨ r.inputLength > 2048)
    ∧ ¬ (r.start.read 4 2).u16At 4 > 255 := by
  have hindex : 8 ≤ r.inputLength →
      (r.start.read 4 2).u16At 4 = u16 (r.buffer.drop 4) := by
    intro hin
    have hlength : 8 ≤ r.inputLength.toNat := UInt32.le_iff_toNat_le.mp hin
    have hsize : 8 ≤ r.buffer.length := by
      rw [r.size]
      omega
    have hdrop : 2 ≤ (r.buffer.drop 4).length := by
      rw [List.length_drop]
      omega
    show u16 ((r.buffer ++ r.after).drop 4) = _
    rw [List.drop_append_of_le_length (by omega), u16, u16, List.take_append_of_le_length hdrop]
  constructor
  · intro h
    refine ⟨h.code, ?_, ?_⟩
    · rintro (hnull | hout | hin | hlarge)
      · have hlength := h.length_le
        rw [hnull] at hlength
        simp only [List.length_nil] at hlength
        omega
      · exact absurd h.output (UInt32.not_le.mpr hout)
      · exact absurd h.input.1 (UInt32.not_le.mpr hin)
      · exact absurd h.input.2 (UInt32.not_le.mpr hlarge)
    · rw [hindex h.input.1]
      exact UInt16.not_lt.mpr h.typeIndex
  · rintro ⟨hcode, hchecks, htype⟩
    have hin : 8 ≤ r.inputLength := UInt32.not_lt.mp fun hlt =>
      hchecks (Or.inr (Or.inr (Or.inl hlt)))
    refine ⟨hcode, UInt32.not_lt.mp fun hlt => hchecks (Or.inr (Or.inl hlt)), ⟨hin, ?_⟩, ?_⟩
    · exact UInt32.not_lt.mp fun hlt => hchecks (Or.inr (Or.inr (Or.inr hlt)))
    · rw [hindex hin] at htype
      exact UInt16.not_lt.mp htype

/-- What an open by name does once it gets to the name. -/
theorem Request.Named.serves (h : r.Named) : ∃ type, openObjectByName k r
    = match r.scanned.2 with
      | some name => openNamed k ({ r.terminate with
          accesses := r.terminate.accesses ++ r.scanned.1 }.read 4 2) type name
      | none => ⟨r.terminate.memory, r.terminate.accesses ++ r.scanned.1, none⟩ := by
  obtain ⟨-, hchecks, htype⟩ := openObjectByName_checks.mp h
  unfold openObjectByName
  rw [if_neg hchecks]
  simp only
  rw [dif_neg htype]
  exact ⟨_, rfl⟩

theorem openObjectByName_safe_iff (k : Kernel) (h : r.Named) : Safe r (openObjectByName k r)
    ↔ 0 ∈ units ((r.terminate.memory.drop 6).take (r.inputLength.toNat - 6)) := by
  obtain ⟨type, hserves⟩ := @Request.Named.serves k r h
  rw [hserves]
  constructor
  · intro hsafe
    rw [← h.scan_inside]
    intro a ha
    refine hsafe.reads a ?_ (scanName_reads a ha)
    cases hname : r.scanned.2 with
    | none => exact List.mem_append_right _ ha
    | some name =>
      refine openNamed_accesses ?_
      exact List.mem_append_left _ (List.mem_append_right _ ha)
  · intro hzero
    obtain ⟨name, hname, hlength⟩ := @scanName_some (r.terminate.memory.drop 6) 6 _ hzero
    have hscan : Inside r (r.terminate.accesses ++ r.scanned.1) := by
      have hterminate := h.terminate_inside
      have hinside := h.scan_inside.mpr hzero
      constructor
      · intro a ha hw
        rcases List.mem_append.mp ha with hold | hnew
        · exact hterminate.reads a hold hw
        · exact hinside a hnew
      · intro a ha hw
        rcases List.mem_append.mp ha with hold | hnew
        · exact hterminate.writes a hold hw
        · rw [scanName_reads a hnew] at hw
          cases hw
    obtain ⟨hin, -⟩ := h.length_le
    have hsome : r.scanned.2 = some name := hname
    simp only [hsome]
    refine openNamed_safe ?_ h.output (by omega)
    exact @Inside.read r { r.terminate with accesses := r.terminate.accesses ++ r.scanned.1 }
      hscan 4 2 (by omega)

/-- An open by name that does not get to the name fails. -/
theorem openObjectByName_safe (hcode : r.controlCode = ioctlOpenObjectByName) (h : ¬ r.Named) :
    Safe r (openObjectByName k r) := by
  unfold openObjectByName
  by_cases hchecks : r.buffer = [] ∨ r.outputLength < 8 ∨ r.inputLength < 8
      ∨ r.inputLength > 2048
  · rw [if_pos hchecks]
    exact (Inside.start r).failed (by decide)
  · rw [if_neg hchecks]
    have hin : 8 ≤ r.inputLength.toNat := UInt32.le_iff_toNat_le.mp
      (UInt32.not_lt.mp fun hlt => hchecks (Or.inr (Or.inr (Or.inl hlt))))
    have hread : Inside r (r.start.read 4 2).accesses := (Inside.start r).read (by omega)
    simp only
    by_cases htype : (r.start.read 4 2).u16At 4 > 255
    · rw [dif_pos htype]
      exact hread.failed (by decide)
    · exact absurd (openObjectByName_checks.mpr ⟨hcode, hchecks, htype⟩) h

end Naming

/-! ## every request -/

/--
**Whatever the request and the kernel's answers, every read is in the request, every write in the
buffer, and what is reported is what was stored**, exactly if the name of an open by name ends
before the request does.
-/
theorem safe_iff_nameEnds (k : Kernel) (r : Request) :
    Safe r (winSysDeviceControl k r) ↔ NameEnds r := by
  by_cases hcode : r.controlCode = ioctlOpenObjectByName
  · have hserves : winSysDeviceControl k r = openObjectByName k r := by
      unfold winSysDeviceControl
      rw [hcode, if_neg (by decide), if_neg (by decide), if_neg (by decide), if_pos rfl]
    rw [hserves]
    by_cases hnamed : r.Named
    · rw [openObjectByName_safe_iff k hnamed, hnamed.zero_mem]
      exact ⟨fun h _ => h, fun h => h hnamed⟩
    · exact iff_of_true (openObjectByName_safe hcode hnamed) fun h => absurd h hnamed
  · have hsafe : Safe r (winSysDeviceControl k r) := by
      unfold winSysDeviceControl
      split
      · exact getVersion_safe r
      · split
        · exact dupHandle_safe k r
        · split
          · exact openProcessThread_safe k r
          · exact (Inside.start r).failed (by decide)
    exact iff_of_true hsafe fun h => absurd h.code hcode

/-- A kernel that opens every process and nothing else. -/
def processKernel : Kernel where
  zwOpenProcess _ _ := (statusSuccess, 8)
  zwOpenThread _ _ := (statusInvalidParameter, 0)
  zwDuplicateObject _ _ _ _ := (statusInvalidParameter, 0)
  obOpenObjectByName _ _ _ := (statusInvalidParameter, 0)
  zwOpenSession _ _ := (statusInvalidParameter, 0)
  zwOpenSymbolicLinkObject _ _ := (statusInvalidParameter, 0)
  objectTypes _ := 0

/-- An open by name of nine bytes. -/
def oddRequest : Request where
  controlCode := ioctlOpenObjectByName
  inputLength := 9
  outputLength := 10
  buffer := [0, 0, 0, 0, 0, 0, 1, 1, 1, 1]
  after := [0, 0]
  size := by decide

/-- The terminator is half of the second character, whose other half is behind the request. -/
theorem odd_name_read_behind :
    ¬ ∀ (k : Kernel) (r : Request), Safe r (winSysDeviceControl k r) := by
  intro hall
  have hreads := (hall processKernel oddRequest).reads ⟨false, 8, 2⟩ (by decide) rfl
  revert hreads
  decide

end WinSys.Driver
