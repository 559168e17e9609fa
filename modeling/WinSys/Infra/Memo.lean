import Mathlib.Data.List.Nodup

/-!
# Answers that are kept

A table of the answers to the questions asked so far, each asked once.

* `Memo.get`: the answer, from the table if it is there
-/

namespace Infra

variable {α β : Type} [DecidableEq α]

/-- The answers that are known. -/
structure Memo (f : α → β) where
  entries : List (α × β)
  correct : ∀ e ∈ entries, e.2 = f e.1
  once : (entries.map Prod.fst).Nodup

namespace Memo

variable {f : α → β}

def empty : Memo f where
  entries := []
  correct := nofun
  once := List.nodup_nil

/-- The first answer to a question is kept. -/
def ask (m : Memo f) (a : α) (h : a ∉ m.entries.map Prod.fst) : Memo f where
  entries := (a, f a) :: m.entries
  correct := List.forall_mem_cons.mpr ⟨rfl, m.correct⟩
  once := List.nodup_cons.mpr ⟨h, m.once⟩

theorem notMem_of_find?_eq_none {m : Memo f} {a : α}
    (h : m.entries.find? (fun e => decide (e.1 = a)) = none) : a ∉ m.entries.map Prod.fst := by
  intro hmem
  obtain ⟨e, he, rfl⟩ := List.mem_map.mp hmem
  exact List.find?_eq_none.mp h e he (decide_eq_true rfl)

/-- The answer to a question, and the table with it. -/
def get (m : Memo f) (a : α) : β × Memo f :=
  match h : m.entries.find? (fun e => decide (e.1 = a)) with
  | some e => (e.2, m)
  | none => (f a, m.ask a (notMem_of_find?_eq_none h))

@[simp]
theorem fst_get (m : Memo f) (a : α) : (m.get a).1 = f a := by
  unfold get
  split
  · next e h =>
    have hkey : e.1 = a := of_decide_eq_true (List.find?_some (p := fun e : α × β => decide (e.1 = a)) h)
    rw [m.correct e (List.mem_of_find?_eq_some h), hkey]
  · rfl

end Memo

end Infra
