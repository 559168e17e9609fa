import WinSys.Infra.Bytes

/-!
# Transfers in pieces

What is sent or received goes over in pieces: each operation takes some of what is left, or fails,
as the other side and the time decide. A transfer that succeeds does not depend on the pieces.

* `send`, `receive`: the loops
* `of_receive`: what a transfer that succeeded has done
* `Lasting`, `send_of_lasting`, `receive_of_lasting`: where nothing fails, it succeeds
-/

namespace Infra

/-- What becomes of one operation: it fails, or transfers so much at most. -/
inductive Outcome (ε : Type)
  | failed (error : ε)
  | transferred (limit : ℕ)
deriving DecidableEq, Repr

namespace Transfer

variable {ε : Type}

/-- The bytes that go over, with what is left of the operations. -/
def send (closed : ε) : List (Outcome ε) → Bytes → Except ε (List (Outcome ε))
  | outcomes, [] => .ok outcomes
  | [], _ :: _ => .error closed
  | .failed error :: _, _ :: _ => .error error
  | .transferred limit :: outcomes, b :: bytes =>
    -- nothing transferred is an error
    if limit = 0 then .error closed else send closed outcomes ((b :: bytes).drop limit)

/-- The bytes that come in for so many, with what is still to come and what is left of the
operations. -/
def receive (closed : ε) : List (Outcome ε) → ℕ → Bytes →
    Except ε (Bytes × Bytes × List (Outcome ε))
  | outcomes, 0, incoming => .ok ([], incoming, outcomes)
  | [], _ + 1, _ => .error closed
  | .failed error :: _, _ + 1, _ => .error error
  | .transferred limit :: outcomes, size + 1, incoming =>
    let piece := incoming.take (min limit (size + 1))
    if piece = [] then .error closed
    else (receive closed outcomes (size + 1 - piece.length) (incoming.drop piece.length)).map
      fun (bytes, rest) => (piece ++ bytes, rest)

variable {closed : ε} {outcomes outcomes' : List (Outcome ε)} {size : ℕ}
  {bytes incoming rest : Bytes}

/-- What was received are the bytes that came first. -/
theorem of_receive (h : receive closed outcomes size incoming = .ok (bytes, rest, outcomes')) :
    incoming = bytes ++ rest ∧ bytes.length = size := by
  induction outcomes generalizing size incoming bytes with
  | nil =>
    cases size with
    | zero =>
      cases h
      exact ⟨rfl, rfl⟩
    | succ size => cases h
  | cons outcome outcomes ih =>
    cases size with
    | zero =>
      cases h
      exact ⟨rfl, rfl⟩
    | succ size =>
      cases outcome with
      | failed error => cases h
      | transferred limit =>
        rw [receive] at h
        set piece := incoming.take (min limit (size + 1)) with hpiece
        by_cases hnone : piece = []
        · rw [if_pos hnone] at h
          cases h
        · rw [if_neg hnone] at h
          cases hmore : receive closed outcomes (size + 1 - piece.length)
              (incoming.drop piece.length) with
          | error e =>
            rw [hmore] at h
            cases h
          | ok result =>
            obtain ⟨more, rest', os⟩ := result
            rw [hmore] at h
            cases h
            obtain ⟨hincoming, hlength⟩ := ih hmore
            have hle : piece.length ≤ size + 1 := by
              rw [hpiece, List.length_take]
              omega
            have hpiece : incoming.take piece.length = piece :=
              (List.prefix_iff_eq_take.mp (hpiece ▸ List.take_prefix _ _)).symm
            refine ⟨?_, by rw [List.length_append, hlength]; omega⟩
            calc incoming = incoming.take piece.length ++ incoming.drop piece.length :=
                  (List.take_append_drop _ _).symm
              _ = piece ++ more ++ rest := by rw [hpiece, hincoming, List.append_assoc]

/-! ## where nothing fails -/

/-- There are operations for so many bytes, and none fails. -/
structure Lasting (outcomes : List (Outcome ε)) (size : ℕ) : Prop where
  transfer : ∀ o ∈ outcomes, ∃ limit, o = .transferred limit ∧ limit ≠ 0
  enough : size ≤ outcomes.length

theorem Lasting.head {outcome : Outcome ε} (h : Lasting (outcome :: outcomes) size) :
    ∃ limit, outcome = .transferred limit ∧ limit ≠ 0 := h.transfer _ List.mem_cons_self

theorem Lasting.tail {outcome : Outcome ε} (h : Lasting (outcome :: outcomes) (size + 1)) :
    Lasting outcomes size where
  transfer o ho := h.transfer o (List.mem_cons_of_mem _ ho)
  enough := Nat.le_of_succ_le_succ h.enough

theorem Lasting.mono {size' : ℕ} (h : Lasting outcomes size) (hle : size' ≤ size) :
    Lasting outcomes size' := ⟨h.transfer, hle.trans h.enough⟩

/-- All is sent, and operations for what comes later are left. -/
theorem send_of_lasting (closed : ε) {later : ℕ} (h : Lasting outcomes (bytes.length + later)) :
    ∃ outcomes', send closed outcomes bytes = .ok outcomes' ∧ Lasting outcomes' later := by
  induction outcomes generalizing bytes with
  | nil =>
    have hnil : bytes = [] := by
      have hlength := h.enough
      simp only [List.length_nil, Nat.le_zero, Nat.add_eq_zero_iff] at hlength
      exact List.eq_nil_of_length_eq_zero hlength.1
    subst hnil
    exact ⟨[], rfl, h.mono (Nat.le_add_left _ _)⟩
  | cons outcome outcomes ih =>
    cases bytes with
    | nil => exact ⟨_, rfl, h.mono (Nat.le_add_left _ _)⟩
    | cons b bytes =>
      obtain ⟨limit, rfl, hlimit⟩ := h.head
      rw [send, if_neg hlimit]
      have htail : Lasting outcomes (bytes.length + later) := by
        rw [List.length_cons, Nat.add_right_comm] at h
        exact h.tail
      refine ih (htail.mono ?_)
      rw [List.length_drop, List.length_cons]
      omega

/-- All of it is received, and operations for what comes later are left. -/
theorem receive_of_lasting (closed : ε) (rest : Bytes) {later : ℕ}
    (h : Lasting outcomes (bytes.length + later)) :
    ∃ outcomes', receive closed outcomes bytes.length (bytes ++ rest) = .ok (bytes, rest, outcomes')
      ∧ Lasting outcomes' later := by
  induction outcomes generalizing bytes with
  | nil =>
    have hnil : bytes = [] := by
      have hlength := h.enough
      simp only [List.length_nil, Nat.le_zero, Nat.add_eq_zero_iff] at hlength
      exact List.eq_nil_of_length_eq_zero hlength.1
    subst hnil
    exact ⟨[], rfl, h.mono (Nat.le_add_left _ _)⟩
  | cons outcome outcomes ih =>
    cases bytes with
    | nil => exact ⟨_, rfl, h.mono (Nat.le_add_left _ _)⟩
    | cons b bytes =>
      obtain ⟨limit, rfl, hlimit⟩ := h.head
      have htail : Lasting outcomes (bytes.length + later) := by
        rw [List.length_cons, Nat.add_right_comm] at h
        exact h.tail
      set n := min limit (bytes.length + 1) with hn
      have hpiece : ((b :: bytes) ++ rest).take n = (b :: bytes).take n :=
        List.take_append_of_le_length (by rw [List.length_cons]; omega)
      have hlength : ((b :: bytes).take n).length = n := by
        rw [List.length_take, List.length_cons]
        omega
      have hne : (b :: bytes).take n ≠ [] := List.ne_nil_of_length_pos (by rw [hlength]; omega)
      have hdrop : ((b :: bytes) ++ rest).drop n = (b :: bytes).drop n ++ rest :=
        List.drop_append_of_le_length (by rw [List.length_cons]; omega)
      obtain ⟨outcomes', hmore, hlasting⟩ := @ih ((b :: bytes).drop n) (htail.mono (by
        rw [List.length_drop, List.length_cons]
        omega))
      refine ⟨outcomes', ?_, hlasting⟩
      rw [List.length_cons, receive]
      simp only [← hn, hpiece, if_neg hne, hlength, hdrop]
      rw [List.length_drop, List.length_cons] at hmore
      rw [hmore]
      show Except.ok ((b :: bytes).take n ++ (b :: bytes).drop n, rest, outcomes') = _
      rw [List.take_append_drop]

end Transfer

end Infra
