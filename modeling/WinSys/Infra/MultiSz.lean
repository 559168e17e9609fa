import WinSys.Infra.Chain
import WinSys.Infra.Wide
import Mathlib.Data.List.TakeWhile

/-!
# Lists of strings in one buffer

A list of strings is written with a NUL behind each and one at the end. It is read back by a loop
that trusts the list to end.

* `multiSz`: a list in a buffer
* `trustingStrings`: the loop
* `trustingStrings_multiSz`: it reads the list's items, and the buffer only
-/

namespace Infra

open Reads

/-- The strings, each with a NUL, and a NUL. -/
def multiSz (items : List WString) : WString := items.flatMap (· ++ [0]) ++ [0]

/-- What a list can have as an item. -/
def Item (s : WString) : Prop := s ≠ [] ∧ 0 ∉ s

instance : DecidablePred Item := fun _ => inferInstanceAs (Decidable (_ ∧ _))

/-- The length of the string at a place, as `wcslen` counts it: up to a NUL or the buffer's end. -/
def stringLength (text : WString) (p : ℕ) : ℕ := ((text.drop p).takeWhile (· ≠ 0)).length

/-- A turn of `while (*p)`; `wcslen` reads the NUL too. -/
def trustingTurn (text : WString) (p : ℕ) : Reads (Hop WString) := do
  let first ← raw text p 1
  if first = [0] ∨ first = [] then return .stop
  else do
    let s ← raw text p (stringLength text p + 1)
    return .on (s.take (stringLength text p)) (p + stringLength text p + 1)

def trustingStrings (text : WString) : Reads (List WString) :=
  walk (trustingTurn text) (text.length + 2) 0

/-! ## a list in a buffer -/

/-- A list's items in a buffer from a place on, to a place where `End` holds. -/
abbrev ItemsAt (text : WString) (End : ℕ → Prop) : ℕ → List WString → Prop :=
  Chain (fun p s next => Item s ∧ s ++ [0] <+: text.drop p ∧ next = some (p + s.length + 1)) End

variable {text rest s : WString} {items : List WString} {p : ℕ}

theorem multiSz_cons (s : WString) (items : List WString) :
    multiSz (s :: items) = s ++ [0] ++ multiSz items := by
  rw [multiSz, List.flatMap_cons, List.append_assoc, ← multiSz]

/-- Items that are in a buffer one after another. -/
theorem itemsAt_of_drop {End : ℕ → Prop} (hitems : ∀ s ∈ items, Item s)
    (h : text.drop p = items.flatMap (· ++ [0]) ++ rest)
    (hend : ∀ p, text.drop p = rest → End p) : ItemsAt text End p items := by
  induction items generalizing p with
  | nil => exact .stop (hend p h)
  | cons s items ih =>
    rw [List.flatMap_cons, List.append_assoc] at h
    have hnext : text.drop (p + s.length + 1) = items.flatMap (· ++ [0]) ++ rest := by
      rw [Nat.add_assoc, ← List.drop_drop, h]
      exact List.drop_left' (by simp)
    exact .on ⟨hitems s List.mem_cons_self, ⟨_, h.symm⟩, rfl⟩
      (ih (fun s hs => hitems s (List.mem_cons_of_mem _ hs)) hnext)

/-- The string at a place where an item is. -/
theorem stringLength_of_prefix (hs : 0 ∉ s) (h : s ++ [0] <+: text.drop p) :
    stringLength text p = s.length := by
  obtain ⟨rest, hrest⟩ := h
  rw [stringLength, ← hrest, List.append_assoc, List.takeWhile_append_of_pos, List.singleton_append,
    List.takeWhile_cons_of_neg (by simp), List.append_nil]
  intro c hc
  simpa using fun h : c = 0 => hs (h ▸ hc)

theorem length_of_prefix (h : s ++ [0] <+: text.drop p) : p + s.length + 1 ≤ text.length := by
  have hle := h.length_le
  rw [List.length_append, List.length_singleton, List.length_drop] at hle
  omega

theorem take_one_of_prefix (hs : Item s) (h : s ++ [0] <+: text.drop p) :
    (text.drop p).take 1 ≠ [0] ∧ (text.drop p).take 1 ≠ [] := by
  obtain ⟨rest, hrest⟩ := h
  cases s with
  | nil => exact absurd rfl hs.1
  | cons c s =>
    rw [← hrest]
    refine ⟨fun hc => hs.2 ?_, by simp⟩
    have hc : c = 0 := by simpa using hc
    exact hc ▸ List.mem_cons_self

theorem take_of_prefix (h : s ++ [0] <+: text.drop p) : (text.drop p).take s.length = s := by
  obtain ⟨rest, hrest⟩ := h
  rw [← hrest, List.append_assoc, List.take_left]

/-- Where the text has no more, or a NUL. -/
def Ends (text : WString) (p : ℕ) : Prop := text.length ≤ p ∨ (text.drop p).take 1 = [0]

/-! ## the loop -/

theorem value_trustingTurn_of_ends (h : Ends text p) : (trustingTurn text p).value = .stop := by
  rw [trustingTurn, value_bind, value_raw, if_pos]
  · rfl
  · obtain h | h := h
    · exact .inr (by rw [List.drop_eq_nil_iff.mpr h, List.take_nil])
    · exact .inl h

theorem trustingTurn_of_item (hs : Item s) (h : s ++ [0] <+: text.drop p) :
    (trustingTurn text p).Safe ∧ (trustingTurn text p).value = .on s (p + s.length + 1) := by
  have hlength := length_of_prefix h
  obtain ⟨hnul, hnil⟩ := take_one_of_prefix hs h
  rw [trustingTurn, value_bind, value_raw, if_neg (not_or.mpr ⟨hnul, hnil⟩), safe_bind, value_raw,
    if_neg (not_or.mpr ⟨hnul, hnil⟩), stringLength_of_prefix hs.2 h, value_bind, value_raw,
    List.take_take, Nat.min_eq_left (Nat.le_succ _), take_of_prefix h]
  refine ⟨⟨(safe_raw _ _ _).mpr (by omega), (safe_bind _ _).mpr ⟨?_, safe_pure _⟩⟩, rfl⟩
  exact (safe_raw _ _ _).mpr hlength

theorem onward_trustingTurn (text : WString) : Onward text.length (trustingTurn text) := by
  intro p s next hturn
  rw [trustingTurn, value_bind] at hturn
  split at hturn
  · cases hturn
  · next hfirst =>
    have hp : p < text.length := by
      by_contra hp
      refine hfirst (.inr ?_)
      rw [value_raw, List.drop_eq_nil_iff.mpr (Nat.le_of_not_lt hp), List.take_nil]
    cases hturn
    omega

/-- A list is read inside the buffer. -/
theorem trustingStrings_multiSz (hitems : ∀ s ∈ items, Item s) (rest : WString) :
    (trustingStrings (multiSz items ++ rest)).Safe
      ∧ (trustingStrings (multiSz items ++ rest)).value = items := by
  set text := multiSz items ++ rest with htext
  have hat : ItemsAt text (fun p => (text.drop p).take 1 = [0]) 0 items := by
    have hdrop : text.drop 0 = items.flatMap (· ++ [0]) ++ 0 :: rest := by
      rw [List.drop_zero, htext, multiSz, List.append_assoc, List.singleton_append]
    exact itemsAt_of_drop hitems hdrop fun p h => by rw [h]; rfl
  constructor
  · refine Chain.safe_walk hat ?_ (fun p h => ?_) _
    · rintro p s next ⟨hs, hbefore, rfl⟩
      obtain ⟨hsafe, hvalue⟩ := trustingTurn_of_item hs hbefore
      exact ⟨hsafe, s, hvalue⟩
    · refine ⟨?_, value_trustingTurn_of_ends (.inr h)⟩
      have hp : p < text.length := by
        by_contra hp
        rw [List.drop_eq_nil_iff.mpr (Nat.le_of_not_lt hp), List.take_nil] at h
        cases h
      rw [trustingTurn, safe_bind, value_raw, if_pos (.inl h)]
      exact ⟨(safe_raw _ _ _).mpr hp, safe_pure _⟩
  · have hleads : Leads (trustingTurn text) 0 (items.map id) := by
      refine Chain.leads hat ?_ fun p h => value_trustingTurn_of_ends (.inr h)
      rintro p s next ⟨hs, hbefore, rfl⟩
      exact (trustingTurn_of_item hs hbefore).2
    rw [List.map_id] at hleads
    exact hleads.value_walk_of_onward (onward_trustingTurn text) (by omega)

end Infra
