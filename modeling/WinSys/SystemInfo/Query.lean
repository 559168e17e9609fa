import WinSys.Infra.Bytes
import Mathlib.Data.PNat.Basic
import Mathlib.Tactic.GCongr
import Mathlib.Tactic.Ring

/-!
# Queries whose buffer grows

`Query` asks the kernel for data of a size that is not known before: when the buffer is too small it
is made larger and the kernel is asked again.

* `Kernel`: what answers, call by call
* `query_ends`: the loop ends, whatever the kernel answers
* `query_content`: a kernel that says what it needs is read
* `query_reads`
-/

namespace WinSys.SystemInfo

open Infra

/-! ## the source -/

inductive Status where
  | success
  | tooSmall
  | failed
deriving DecidableEq, Repr

def maxBufferSize : ℕ := 2 ^ 30

/-- The limit when the kernel does not report the required size. -/
def maxGuessedBufferSize : ℕ := 2 ^ 24

/-- `GrowBuffer`: the next size, or 0 to give up. -/
def growBuffer (current required : ℕ) (elementSize : ℕ+) : ℕ :=
  let size := if required > current then required + required / 8 else current * 2
  if size > (if required > current then maxBufferSize else maxGuessedBufferSize) then 0
  else (size + elementSize - 1) / elementSize * elementSize

/-- What a call of `NtQuerySystemInformation` gives: the buffer is as the call leaves it. -/
structure Answer where
  status : Status
  len : UInt32
  buffer : Bytes
deriving DecidableEq, Repr

/-- What answers the calls, by their number and the buffer they pass. It writes to the buffer
only. -/
structure Kernel where
  answer : ℕ → Bytes → Answer
  length_buffer : ∀ call buffer, (answer call buffer).buffer.length = buffer.length

/-- A query that has ended: what it gave, and the sizes of the buffers it passed. -/
structure Queried where
  result : Option Bytes
  sizes : List ℕ
deriving DecidableEq, Repr

namespace Queried

/-- One more call came before. -/
def after (size : ℕ) (q : Queried) : Queried := { q with sizes := size :: q.sizes }

end Queried

/-- `Query`'s loop from a call on; `none` if it has not ended after so many turns. -/
def query (kernel : Kernel) (elementSize : ℕ+) : ℕ → ℕ → Bytes → Option Queried
  | 0, _, _ => none
  | turns + 1, call, buffer =>
    let answer := kernel.answer call buffer
    match answer.status with
    | .success =>
      let data := if answer.len.toNat < buffer.length then answer.buffer.take answer.len.toNat
        else answer.buffer
      some ⟨some data, [buffer.length]⟩
    | .failed => some ⟨none, [buffer.length]⟩
    | .tooSmall =>
      let size := growBuffer buffer.length answer.len.toNat elementSize
      if size = 0 then some ⟨none, [buffer.length]⟩
      else
        -- `resize` keeps what the buffer has
        let buffer' := answer.buffer ++ List.replicate (size - buffer.length) 0
        (query kernel elementSize turns (call + 1) buffer').map (.after buffer.length)

/-! ## how a buffer grows -/

section Grow

variable {current required : ℕ} {elementSize : ℕ+}

/-- A size rounded up to a multiple. -/
theorem roundUp_spec (elementSize : ℕ+) (size : ℕ) :
    size ≤ (size + elementSize - 1) / elementSize * elementSize ∧
      (size + elementSize - 1) / elementSize * elementSize < size + elementSize := by
  have hpos := elementSize.pos
  have hmod := Nat.mod_lt (size + elementSize - 1) hpos
  have hdiv := Nat.div_add_mod' (size + elementSize - 1) elementSize
  omega

/-- **What a larger buffer's size is.** It is a multiple of the element size, more than an eighth
larger, and limited. -/
theorem growBuffer_spec (h : growBuffer current required elementSize ≠ 0) :
    (elementSize : ℕ) ∣ growBuffer current required elementSize
      ∧ current < growBuffer current required elementSize
      ∧ 9 * current ≤ 8 * growBuffer current required elementSize
      ∧ growBuffer current required elementSize < maxBufferSize + elementSize := by
  have hlimits : maxGuessedBufferSize ≤ maxBufferSize := by decide
  unfold growBuffer at h ⊢
  by_cases hrequired : required > current
  · simp only [if_pos hrequired] at h ⊢
    by_cases hlarge : required + required / 8 > maxBufferSize
    · exact absurd (if_pos hlarge) h
    · rw [if_neg hlarge]
      have hround := roundUp_spec elementSize (required + required / 8)
      exact ⟨Nat.dvd_mul_left _ _, by omega, by omega, by omega⟩
  · simp only [if_neg hrequired] at h ⊢
    by_cases hlarge : current * 2 > maxGuessedBufferSize
    · exact absurd (if_pos hlarge) h
    · rw [if_neg hlarge] at h ⊢
      have hround := roundUp_spec elementSize (current * 2)
      have hpos : 0 < current := by
        rcases Nat.eq_zero_or_pos current with rfl | hpos
        · have hpos := elementSize.pos
          exact absurd (by rw [Nat.zero_mul, Nat.div_eq_of_lt (by omega), Nat.zero_mul]) h
        · exact hpos
      exact ⟨Nat.dvd_mul_left _ _, by omega, by omega, by omega⟩

/-- What the kernel says it needs fits in the larger buffer. -/
theorem le_growBuffer (elementSize : ℕ+) (hlt : current < required) (hlimit : required + required / 8 ≤ maxBufferSize) :
    required ≤ growBuffer current required elementSize := by
  have hround := roundUp_spec elementSize (required + required / 8)
  rw [growBuffer, if_pos hlt, if_pos hlt, if_neg (by omega)]
  omega

end Grow

/-! ## the loop ends -/

variable {kernel : Kernel} {elementSize : ℕ+}

/-- The sizes of the buffers of a query that ended, from the size of the first. -/
structure Sizes (elementSize : ℕ+) (first : ℕ) (sizes : List ℕ) : Prop where
  head : sizes.head? = some first
  increasing : sizes.Pairwise (· < ·)
  multiple : ∀ size ∈ sizes.tail, (elementSize : ℕ) ∣ size
  limited : ∀ size ∈ sizes.tail, size < maxBufferSize + elementSize

theorem Sizes.single (first : ℕ) : Sizes elementSize first [first] := ⟨rfl, by simp, nofun, nofun⟩

theorem Sizes.after {current required : ℕ} {sizes : List ℕ}
    (hgrow : growBuffer current required elementSize ≠ 0)
    (h : Sizes elementSize (growBuffer current required elementSize) sizes) :
    Sizes elementSize current (current :: sizes) := by
  obtain ⟨hdvd, hlt, -, hlimit⟩ := growBuffer_spec hgrow
  cases sizes with
  | nil => cases h.head
  | cons size sizes =>
    obtain rfl : size = _ := Option.some.inj h.head
    refine ⟨rfl, List.pairwise_cons.mpr ⟨?_, h.increasing⟩, ?_, ?_⟩
    · refine List.forall_mem_cons.mpr ⟨hlt, fun s hs => ?_⟩
      exact Nat.lt_trans hlt ((List.pairwise_cons.mp h.increasing).1 s hs)
    · exact List.forall_mem_cons.mpr ⟨hdvd, h.multiple⟩
    · exact List.forall_mem_cons.mpr ⟨hlimit, h.limited⟩

/-- **The loop ends whatever the kernel answers**, after logarithmically many calls: no more than
`turns + 1` of them where `(9/8) ^ turns` times the first size is beyond the limit. The buffers it
passes are larger each time, and multiples of the element size after the first. -/
theorem query_ends (kernel : Kernel) (call : ℕ) {turns : ℕ} {buffer : Bytes}
    (h : 8 ^ turns * (maxBufferSize + elementSize) < 9 ^ turns * buffer.length) :
    ∃ q, query kernel elementSize (turns + 1) call buffer = some q
      ∧ q.sizes.length ≤ turns + 1 ∧ Sizes elementSize buffer.length q.sizes := by
  induction turns generalizing call buffer with
  | zero =>
    rw [pow_zero, Nat.one_mul, pow_zero, Nat.one_mul] at h
    rw [query]
    cases (kernel.answer call buffer).status with
    | success => exact ⟨_, rfl, Nat.le_refl 1, .single _⟩
    | failed => exact ⟨_, rfl, Nat.le_refl 1, .single _⟩
    | tooSmall =>
      -- the buffer is beyond the limit already
      have hzero : growBuffer buffer.length (kernel.answer call buffer).len.toNat elementSize = 0 := by
        by_contra hne
        obtain ⟨-, hlt, -, hlimit⟩ := growBuffer_spec hne
        omega
      exact ⟨_, if_pos hzero, Nat.le_refl 1, .single _⟩
  | succ turns ih =>
    rw [query]
    cases (kernel.answer call buffer).status with
    | success => exact ⟨_, rfl, by simp, .single _⟩
    | failed => exact ⟨_, rfl, by simp, .single _⟩
    | tooSmall =>
      set size := growBuffer buffer.length (kernel.answer call buffer).len.toNat elementSize with hsize
      by_cases hzero : size = 0
      · exact ⟨_, if_pos hzero, by simp, .single _⟩
      · obtain ⟨-, hlt, hratio, -⟩ := growBuffer_spec hzero
        rw [← hsize] at hlt hratio
        have hlength : ((kernel.answer call buffer).buffer
            ++ List.replicate (size - buffer.length) 0).length = size := by
          rw [List.length_append, kernel.length_buffer, List.length_replicate]
          omega
        have hnext : 8 ^ turns * (maxBufferSize + elementSize) < 9 ^ turns * size := by
          have hscaled : 8 * (8 ^ turns * (maxBufferSize + elementSize)) < 8 * (9 ^ turns * size) :=
            calc 8 * (8 ^ turns * (maxBufferSize + elementSize))
                = 8 ^ (turns + 1) * (maxBufferSize + elementSize) := by ring
              _ < 9 ^ (turns + 1) * buffer.length := h
              _ = 9 ^ turns * (9 * buffer.length) := by ring
              _ ≤ 9 ^ turns * (8 * size) := by gcongr
              _ = 8 * (9 ^ turns * size) := by ring
          exact Nat.lt_of_mul_lt_mul_left hscaled
        obtain ⟨q, hq, hcalls, hsizes⟩ := @ih (call + 1) _ (hlength.symm ▸ hnext)
        rw [hlength] at hsizes
        exact ⟨q.after buffer.length, (if_neg hzero).trans (congrArg (Option.map _) hq),
          Nat.succ_le_succ hcalls, hsizes.after hzero⟩

/-! ## what is read -/

/-- The kernel has something to give at each call: it says how long that is, and writes it to the
buffer's start where it fits. -/
structure Kernel.Gives (kernel : Kernel) (content : ℕ → Bytes) : Prop where
  fits : ∀ call buffer, (content call).length ≤ buffer.length →
    kernel.answer call buffer = ⟨.success, (content call).length.toUInt32,
      content call ++ buffer.drop (content call).length⟩
  large : ∀ call buffer, buffer.length < (content call).length →
    (kernel.answer call buffer).status = .tooSmall
      ∧ (kernel.answer call buffer).len = (content call).length.toUInt32

/-- A length that the loop can ask for. -/
def Askable (size : ℕ) : Prop := size + size / 8 ≤ maxBufferSize

instance : DecidablePred Askable := fun _ => inferInstanceAs (Decidable (_ ≤ _))

theorem Askable.toUInt32 {size : ℕ} (h : Askable size) : size.toUInt32.toNat = size := by
  unfold Askable maxBufferSize at h
  rw [Nat.toUInt32_eq, UInt32.toNat_ofNat', Nat.mod_eq_of_lt (by omega)]

/-- **A kernel that says what it needs is read**: the query gives what the kernel had at the last of
the calls, and all of it, however what it has changes between the calls. -/
theorem query_content {content : ℕ → Bytes} (hgives : kernel.Gives content)
    (hlimit : ∀ call, Askable (content call).length) {turns call : ℕ} {buffer : Bytes} {q : Queried}
    (hq : query kernel elementSize turns call buffer = some q) :
    ∃ calls, q.sizes.length = calls + 1 ∧ q.result = some (content (call + calls)) := by
  induction turns generalizing call buffer q with
  | zero => cases hq
  | succ turns ih =>
    rw [query] at hq
    by_cases hfits : (content call).length ≤ buffer.length
    · rw [hgives.fits call buffer hfits] at hq
      cases hq
      refine ⟨0, rfl, congrArg some ?_⟩
      rw [(hlimit call).toUInt32]
      split
      · exact List.take_left
      · next hfull =>
        rw [List.drop_eq_nil_of_le (by omega), List.append_nil]
        rfl
    · obtain ⟨hstatus, hlen⟩ := hgives.large call buffer (Nat.lt_of_not_le hfits)
      rw [hstatus, hlen, (hlimit call).toUInt32] at hq
      have hgrow := le_growBuffer elementSize (Nat.lt_of_not_le hfits) (hlimit call)
      have hne : growBuffer buffer.length (content call).length elementSize ≠ 0 := by omega
      rw [if_neg hne] at hq
      obtain ⟨q', hq', rfl⟩ := Option.map_eq_some_iff.mp hq
      obtain ⟨calls, hcalls, hresult⟩ := ih hq'
      refine ⟨calls + 1, congrArg (· + 1) hcalls, hresult.trans ?_⟩
      rw [Nat.add_right_comm, Nat.add_assoc]

/-- What a query gives has the size of one of its buffers at most. -/
theorem length_result_le {turns call : ℕ} {buffer data : Bytes} {q : Queried}
    (hq : query kernel elementSize turns call buffer = some q) (hdata : q.result = some data) :
    data.length ≤ max buffer.length (maxBufferSize + elementSize) := by
  induction turns generalizing call buffer q with
  | zero => cases hq
  | succ turns ih =>
    rw [query] at hq
    have hlength := kernel.length_buffer call buffer
    cases hstatus : (kernel.answer call buffer).status with
    | success =>
      rw [hstatus] at hq
      cases hq
      cases hdata
      split
      · rw [List.length_take]
        omega
      · omega
    | failed =>
      rw [hstatus] at hq
      cases hq
      cases hdata
    | tooSmall =>
      rw [hstatus] at hq
      set size := growBuffer buffer.length (kernel.answer call buffer).len.toNat elementSize with hsize
      by_cases hzero : size = 0
      · cases (if_pos hzero).symm.trans hq
        cases hdata
      · obtain ⟨q', hq', rfl⟩ := Option.map_eq_some_iff.mp ((if_neg hzero).symm.trans hq)
        obtain ⟨-, hlt, -, hlimit⟩ := growBuffer_spec hzero
        rw [← hsize] at hlt hlimit
        have hle := ih hq' hdata
        rw [List.length_append, List.length_replicate, hlength] at hle
        omega

/-- The kernel that has something to give at each call. -/
def Kernel.ofContent (content : ℕ → Bytes) : Kernel where
  answer call buffer :=
    if (content call).length ≤ buffer.length then
      ⟨.success, (content call).length.toUInt32, content call ++ buffer.drop (content call).length⟩
    else ⟨.tooSmall, (content call).length.toUInt32, buffer⟩
  length_buffer call buffer := by
    split
    · next h =>
      rw [List.length_append, List.length_drop]
      omega
    · rfl

theorem Kernel.gives_ofContent (content : ℕ → Bytes) : (Kernel.ofContent content).Gives content where
  fits _ _ h := if_pos h
  large call buffer h := by
    have hanswer : (Kernel.ofContent content).answer call buffer
        = ⟨.tooSmall, (content call).length.toUInt32, buffer⟩ := if_neg (Nat.not_le.mpr h)
    rw [hanswer]
    exact ⟨rfl, rfl⟩

/-- Turns that are enough for every first size and element size. -/
def enoughTurns : ℕ := 184

/-- The element size that `Query` has by default. -/
def defaultElementSize : ℕ+ := 1

/-- `Query`, whose buffer is of zeros at first. -/
def queryData (kernel : Kernel) (initialSize : ℕ) (elementSize : ℕ+) : Option Bytes :=
  (query kernel elementSize enoughTurns 0 (List.replicate initialSize 0)).bind Queried.result

theorem length_queryData_le {initialSize : ℕ} {data : Bytes}
    (h : queryData kernel initialSize elementSize = some data) :
    data.length ≤ max initialSize (maxBufferSize + elementSize) := by
  obtain ⟨q, hq, hdata⟩ := Option.bind_eq_some_iff.mp h
  have hle := length_result_le hq hdata
  rwa [List.length_replicate] at hle

/-- The first buffer is large enough for `enoughTurns`. -/
theorem enoughTurns_spec {initialSize : ℕ} (hinitial : 0 < initialSize)
    (helement : (elementSize : ℕ) ≤ maxBufferSize) :
    8 ^ 183 * (maxBufferSize + elementSize)
      < 9 ^ 183 * (List.replicate initialSize (0 : UInt8)).length := by
  have hturns : 8 ^ 183 * (maxBufferSize + maxBufferSize) < 9 ^ 183 * 1 := by decide
  rw [List.length_replicate]
  calc 8 ^ 183 * (maxBufferSize + elementSize)
      ≤ 8 ^ 183 * (maxBufferSize + maxBufferSize) := by gcongr
    _ < 9 ^ 183 * 1 := hturns
    _ ≤ 9 ^ 183 * initialSize := by gcongr; omega

/-- A query of what the kernel has gives what it had at one of the calls. -/
theorem queryData_eq {content : ℕ → Bytes} (hgives : kernel.Gives content)
    (hlimit : ∀ call, Askable (content call).length) {initialSize : ℕ} (hinitial : 0 < initialSize)
    (helement : (elementSize : ℕ) ≤ maxBufferSize) :
    ∃ call, queryData kernel initialSize elementSize = some (content call) := by
  obtain ⟨q, hq, -, -⟩ := query_ends kernel 0
    (enoughTurns_spec hinitial helement)
  obtain ⟨calls, -, hresult⟩ := query_content hgives hlimit hq
  exact ⟨0 + calls, by rw [queryData, enoughTurns, hq, Option.bind_some, hresult]⟩

/-- **A query ends whatever the kernel answers, and reads the whole of what the kernel has.** It makes
no more than `enoughTurns` calls, with larger buffers each time; what it has read is what the kernel
had at the last of them. -/
theorem query_reads {initialSize : ℕ} (hinitial : 0 < initialSize)
    (helement : (elementSize : ℕ) ≤ maxBufferSize) :
    ∃ q, query kernel elementSize enoughTurns 0 (List.replicate initialSize 0) = some q
      ∧ q.sizes.length ≤ enoughTurns ∧ Sizes elementSize initialSize q.sizes
      ∧ ∀ content, kernel.Gives content → (∀ call, Askable (content call).length) →
        q.result = some (content (q.sizes.length - 1)) := by
  obtain ⟨q, hq, hcalls, hsizes⟩ := query_ends kernel 0
    (enoughTurns_spec hinitial helement)
  rw [List.length_replicate] at hsizes
  refine ⟨q, hq, hcalls, hsizes, fun content hgives hlimit => ?_⟩
  obtain ⟨calls, hlength, hresult⟩ := query_content hgives hlimit hq
  rw [hresult, hlength, Nat.zero_add, Nat.add_sub_cancel]

/-- What the kernel has grows between the first calls. -/
def growingContent (call : ℕ) : Bytes := List.replicate (5 + min call 2) 7

theorem query_reads_growingContent :
    ∃ q, query (.ofContent growingContent) defaultElementSize enoughTurns 0 (List.replicate 4 0) = some q
      ∧ q.result = some (growingContent (q.sizes.length - 1)) := by
  obtain ⟨q, hq, -, -, hresult⟩ :=
    @query_reads (.ofContent growingContent) defaultElementSize 4 (by decide) (by decide)
  refine ⟨q, hq, hresult growingContent (Kernel.gives_ofContent growingContent) fun call => ?_⟩
  rw [growingContent, List.length_replicate, Askable, maxBufferSize]
  omega

end WinSys.SystemInfo
