import Mathlib.Data.List.Induction
import Mathlib.Data.List.Nodup

/-!
# Gathering by key

A list with at most one entry for each key. What comes is added to the entry of its key, which is
made at the end where there is none.

* `gather`: the list after all that came
* `keys_gather`: the keys, each where it came first
* `gathered_of_mem`: an entry is what came for its key, in order
-/

namespace Infra

section EraseDups

variable {α : Type*} [BEq α] [LawfulBEq α]

theorem nodup_eraseDups (l : List α) : l.eraseDups.Nodup := by
  induction hn : l.length using Nat.strongRecOn generalizing l with
  | _ n ih =>
    cases l with
    | nil => exact List.nodup_nil
    | cons a l =>
      rw [List.eraseDups_cons]
      have hlength := List.length_filter_le (fun b => !b == a) l
      rw [List.length_cons] at hn
      refine List.nodup_cons.mpr ⟨fun hmem => ?_, ih _ (by omega) _ rfl⟩
      have hne := (List.mem_filter.mp (List.mem_eraseDups.mp hmem)).2
      simp at hne

/-- One more is kept if it is new. -/
theorem eraseDups_concat (l : List α) (a : α) :
    (l ++ [a]).eraseDups = if l.contains a then l.eraseDups else l.eraseDups ++ [a] := by
  rw [List.eraseDups_append]
  by_cases h : a ∈ l
  · simp [h, List.removeAll]
  · simp [h, List.removeAll, List.eraseDups_cons]

end EraseDups

variable {ε α κ : Type} [DecidableEq κ]

/-- What comes, added to the entry of its key. -/
def gatherOne (keyOf : α → κ) (key : ε → κ) (make : ε → α) (add : α → ε → α) (e : ε) :
    List α → List α
  | [] => [add (make e) e]
  | a :: rest =>
    if keyOf a = key e then add a e :: rest else a :: gatherOne keyOf key make add e rest

def gather (keyOf : α → κ) (key : ε → κ) (make : ε → α) (add : α → ε → α) (events : List ε) :
    List α :=
  events.foldl (fun l e => gatherOne keyOf key make add e l) []

/-- The entry of a key, from all that came for it. -/
def gathered (make : ε → α) (add : α → ε → α) : List ε → Option α
  | [] => none
  | e :: events => some ((e :: events).foldl add (make e))

/-- What came for a key. -/
def cameFor (key : ε → κ) (k : κ) (events : List ε) : List ε := events.filter (key · = k)

variable {keyOf : α → κ} {key : ε → κ} {make : ε → α} {add : α → ε → α}

theorem mem_cameFor {k : κ} {events : List ε} {e : ε} :
    e ∈ cameFor key k events ↔ e ∈ events ∧ key e = k := by
  rw [cameFor, List.mem_filter, decide_eq_true_iff]

theorem cameFor_concat_self {k : κ} {e : ε} (he : key e = k) (events : List ε) :
    cameFor key k (events ++ [e]) = cameFor key k events ++ [e] := by
  simp [cameFor, List.filter_append, he]

theorem cameFor_concat_of_ne {k : κ} {e : ε} (he : key e ≠ k) (events : List ε) :
    cameFor key k (events ++ [e]) = cameFor key k events := by
  simp [cameFor, List.filter_append, he]

theorem gathered_concat (events : List ε) (e : ε) :
    gathered make add (events ++ [e]) = some (add ((gathered make add events).getD (make e)) e) := by
  cases events with
  | nil => rfl
  | cons first events => exact congrArg some (List.foldl_append)

theorem gather_concat (events : List ε) (e : ε) :
    gather keyOf key make add (events ++ [e])
      = gatherOne keyOf key make add e (gather keyOf key make add events) := by
  rw [gather, List.foldl_append, List.foldl_cons, List.foldl_nil]
  rfl

/-- The entries' keys stay, and a new one is made as the key says. -/
structure KeepsKeys (keyOf : α → κ) (key : ε → κ) (make : ε → α) (add : α → ε → α) : Prop where
  make : ∀ e, keyOf (make e) = key e
  add : ∀ a e, keyOf (add a e) = keyOf a

variable (h : KeepsKeys keyOf key make add)

include h

theorem keys_gatherOne (e : ε) (l : List α) :
    (gatherOne keyOf key make add e l).map keyOf
      = if (l.map keyOf).contains (key e) then l.map keyOf else l.map keyOf ++ [key e] := by
  induction l with
  | nil => exact congrArg (· :: []) ((h.add _ _).trans (h.make e))
  | cons a l ih =>
    rw [gatherOne, List.map_cons, List.contains_cons]
    by_cases hkey : keyOf a = key e
    · rw [if_pos hkey, List.map_cons, h.add, hkey, beq_self_eq_true, Bool.true_or, if_pos rfl]
    · have hne : (key e == keyOf a) = false := beq_false_of_ne (Ne.symm hkey)
      rw [if_neg hkey, List.map_cons, ih, hne, Bool.false_or]
      split <;> rfl

/-- **The keys are those that came, each where it came first.** -/
theorem keys_gather (events : List ε) :
    (gather keyOf key make add events).map keyOf = (events.map key).eraseDups := by
  induction events using List.reverseRecOn with
  | nil => rfl
  | append_singleton events e ih =>
    rw [gather_concat, keys_gatherOne h, ih, List.map_append, List.map_singleton, eraseDups_concat]
    have hcontains : (events.map key).eraseDups.contains (key e) = (events.map key).contains (key e) := by
      rw [Bool.eq_iff_iff, List.contains_iff_mem, List.contains_iff_mem, List.mem_eraseDups]
    rw [hcontains]

theorem nodup_keys_gather (events : List ε) :
    ((gather keyOf key make add events).map keyOf).Nodup :=
  keys_gather h events ▸ nodup_eraseDups _

theorem mem_keys_gather {events : List ε} {k : κ} :
    k ∈ (gather keyOf key make add events).map keyOf ↔ ∃ e ∈ events, key e = k := by
  rw [keys_gather h, List.mem_eraseDups, List.mem_map]

omit h in
/-- The entries after one more: those of the other keys, and its own. -/
theorem mem_gatherOne {e : ε} {l : List α} (hl : (l.map keyOf).Nodup) {a : α}
    (ha : a ∈ gatherOne keyOf key make add e l) :
    a ∈ l ∧ keyOf a ≠ key e ∨ (∃ b ∈ l, keyOf b = key e ∧ a = add b e)
      ∨ key e ∉ l.map keyOf ∧ a = add (make e) e := by
  induction l with
  | nil => exact .inr (.inr ⟨List.not_mem_nil, List.mem_singleton.mp ha⟩)
  | cons b l ih =>
    rw [List.map_cons, List.nodup_cons] at hl
    rw [gatherOne] at ha
    by_cases hkey : keyOf b = key e
    · rw [if_pos hkey] at ha
      obtain rfl | ha := List.mem_cons.mp ha
      · exact .inr (.inl ⟨b, List.mem_cons_self, hkey, rfl⟩)
      · refine .inl ⟨List.mem_cons_of_mem _ ha, fun hsame => hl.1 ?_⟩
        rw [hkey, ← hsame]
        exact List.mem_map_of_mem ha
    · rw [if_neg hkey] at ha
      obtain rfl | ha := List.mem_cons.mp ha
      · exact .inl ⟨List.mem_cons_self, hkey⟩
      · obtain ⟨hmem, hne⟩ | ⟨c, hc, heq⟩ | ⟨hnew, heq⟩ := ih hl.2 ha
        · exact .inl ⟨List.mem_cons_of_mem _ hmem, hne⟩
        · exact .inr (.inl ⟨c, List.mem_cons_of_mem _ hc, heq⟩)
        · refine .inr (.inr ⟨?_, heq⟩)
          rw [List.map_cons, List.mem_cons]
          exact not_or.mpr ⟨fun hsame => hkey hsame.symm, hnew⟩

/-- An entry is what came for its key. -/
theorem gathered_of_mem {events : List ε} {a : α} (ha : a ∈ gather keyOf key make add events) :
    gathered make add (cameFor key (keyOf a) events) = some a := by
  induction events using List.reverseRecOn generalizing a with
  | nil => cases ha
  | append_singleton events e ih =>
    rw [gather_concat] at ha
    obtain ⟨hmem, hne⟩ | ⟨b, hb, hkey, rfl⟩ | ⟨hnew, rfl⟩ :=
      mem_gatherOne (nodup_keys_gather h events) ha
    · rw [cameFor_concat_of_ne (Ne.symm hne)]
      exact ih hmem
    · rw [h.add, cameFor_concat_self hkey.symm, gathered_concat, ih hb, Option.getD_some]
    · have hnone : cameFor key (key e) events = [] := by
        refine List.eq_nil_iff_forall_not_mem.mpr fun e' he' => hnew ?_
        obtain ⟨hmem, hsame⟩ := mem_cameFor.mp he'
        exact (mem_keys_gather h).mpr ⟨e', hmem, hsame⟩
      rw [h.add, h.make, cameFor_concat_self rfl, gathered_concat, hnone]
      rfl

end Infra
