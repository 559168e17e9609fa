import Mathlib.Data.Nat.Notation

/-!
# Reading with the accesses kept

A computation that indexes vectors is its value with every access it made, in order. `Safe` says
that no access was outside its vector; it is checked along a computation by its binds.

`collect` is a counted loop that adds results and may stop.
-/

namespace Infra

/-- An access to `count` elements of a vector of `size` elements. -/
structure Span where
  size : ℕ
  offset : ℕ
  count : ℕ
deriving DecidableEq, Repr

def Span.Inside (s : Span) : Prop := s.offset + s.count ≤ s.size

instance (s : Span) : Decidable s.Inside := inferInstanceAs (Decidable (_ ≤ _))

structure Reads (α : Type) where
  value : α
  spans : List Span := []

namespace Reads

variable {α β : Type}

instance : Monad Reads where
  pure a := { value := a }
  bind r f := { value := (f r.value).value, spans := r.spans ++ (f r.value).spans }

/-- Every access is inside its vector. -/
def Safe (r : Reads α) : Prop := ∀ s ∈ r.spans, s.Inside

/-- The elements at an offset, unchecked. -/
def raw (v : List α) (offset count : ℕ) : Reads (List α) where
  value := (v.drop offset).take count
  spans := [⟨v.length, offset, count⟩]

@[simp] theorem value_pure (a : α) : (pure a : Reads α).value = a := rfl

@[simp] theorem value_bind (r : Reads α) (f : α → Reads β) :
    (r >>= f).value = (f r.value).value := rfl

@[simp] theorem value_raw (v : List α) (offset count : ℕ) :
    (raw v offset count).value = (v.drop offset).take count := rfl

@[simp] theorem safe_pure (a : α) : (pure a : Reads α).Safe := nofun

@[simp] theorem safe_bind (r : Reads α) (f : α → Reads β) :
    (r >>= f).Safe ↔ r.Safe ∧ (f r.value).Safe := List.forall_mem_append

@[simp] theorem safe_raw (v : List α) (offset count : ℕ) :
    (raw v offset count).Safe ↔ offset + count ≤ v.length := List.forall_mem_singleton

theorem Safe.ite {p : Prop} [Decidable p] {r s : Reads α} (hr : p → r.Safe) (hs : ¬p → s.Safe) :
    (if p then r else s).Safe := by
  split
  · next h => exact hr h
  · next h => exact hs h

theorem Safe.dite {p : Prop} [Decidable p] {r : p → Reads α} {s : ¬p → Reads α}
    (hr : ∀ h, (r h).Safe) (hs : ∀ h, (s h).Safe) : (if h : p then r h else s h).Safe := by
  by_cases h : p
  · rw [dif_pos h]
    exact hr h
  · rw [dif_neg h]
    exact hs h

/-! ## counted loops -/

/-- What a turn of a loop does: `break`, `continue`, or add a result. -/
inductive Turn (α : Type) where
  | stop
  | skip
  | add (a : α)

/-- At most `turns` turns from index `i` on. -/
def collect (turn : ℕ → Reads (Turn α)) : ℕ → ℕ → Reads (List α)
  | 0, _ => pure []
  | turns + 1, i => do
    match ← turn i with
    | .stop => pure []
    | .skip => collect turn turns (i + 1)
    | .add a => return a :: (← collect turn turns (i + 1))

/-- A turn that adds what there is. -/
def Turn.ofOption : Option α → Turn α
  | none => .skip
  | some a => .add a

variable {turn : ℕ → Reads (Turn α)}

/-- A loop over the entries of a table, up to the turn that stops it. -/
theorem value_collect_table {γ : Type} {f : γ → Option α} {xs : List γ} {turns i : ℕ}
    (hcount : xs.length ≤ turns)
    (hturn : ∀ j (hj : j < xs.length), (turn (i + j)).value = .ofOption (f xs[j]))
    (hstop : xs.length < turns → (turn (i + xs.length)).value = .stop) :
    (collect turn turns i).value = xs.filterMap f := by
  induction xs generalizing turns i with
  | nil =>
    cases turns with
    | zero => rfl
    | succ turns =>
      have hstop : (turn i).value = .stop := hstop (by simp)
      rw [collect, value_bind, hstop]
      rfl
  | cons x xs ih =>
    rw [List.length_cons] at hcount
    obtain ⟨turns, rfl⟩ : ∃ t, turns = t + 1 := ⟨turns - 1, by omega⟩
    have hrest := @ih turns (i + 1) (by omega)
      (fun j hj => by
        rw [Nat.add_assoc, Nat.add_comm 1]
        exact hturn (j + 1) (Nat.succ_lt_succ hj))
      fun hlt => by
        rw [Nat.add_assoc, Nat.add_comm 1]
        exact hstop (Nat.succ_lt_succ hlt)
    have hfirst : (turn i).value = .ofOption (f x) := hturn 0 (Nat.succ_pos _)
    rw [collect, value_bind, hfirst, List.filterMap_cons]
    cases f x with
    | none => exact hrest
    | some a => exact congrArg (a :: ·) hrest

/-- A loop over a table each of whose turns adds. -/
theorem value_collect_map {γ : Type} {f : γ → α} {xs : List γ} {turns i : ℕ}
    (hcount : xs.length ≤ turns)
    (hturn : ∀ j (hj : j < xs.length), (turn (i + j)).value = .add (f xs[j]))
    (hstop : xs.length < turns → (turn (i + xs.length)).value = .stop) :
    (collect turn turns i).value = xs.map f := by
  rw [← List.filterMap_eq_map]
  exact value_collect_table hcount hturn hstop

/-- A loop whose turns are known by their indices. -/
theorem value_collect_range {f : ℕ → Option α} {count turns : ℕ} (hcount : count ≤ turns)
    (hturn : ∀ j < count, (turn j).value = .ofOption (f j))
    (hstop : count < turns → (turn count).value = .stop) :
    (collect turn turns 0).value = (List.range count).filterMap f := by
  refine value_collect_table (by simpa using hcount) (fun j hj => ?_) fun hlt => ?_
  · simpa using hturn j (by simpa using hj)
  · simpa using hstop (by simpa using hlt)

theorem Safe.collect {turns i : ℕ} (h : ∀ j < i + turns, (turn j).Safe) :
    (collect turn turns i).Safe := by
  induction turns generalizing i with
  | zero => exact safe_pure _
  | succ turns ih =>
    have hrest := @ih (i + 1) fun j hj => h j (by omega)
    refine (safe_bind _ _).mpr ⟨h i (by omega), ?_⟩
    cases (turn i).value with
    | stop => exact safe_pure _
    | skip => exact hrest
    | add a => exact (safe_bind _ _).mpr ⟨hrest, safe_pure _⟩

/-- A loop has at most a result a turn. -/
theorem length_collect (turns i : ℕ) : (collect turn turns i).value.length ≤ turns := by
  induction turns generalizing i with
  | zero => exact Nat.zero_le _
  | succ turns ih =>
    have hrest := ih (i + 1)
    rw [collect, value_bind]
    cases (turn i).value with
    | stop => exact Nat.zero_le _
    | skip => exact Nat.le_succ_of_le hrest
    | add a => exact Nat.succ_le_succ hrest

/-- A result comes from a turn. -/
theorem mem_collect {turns i : ℕ} {a : α} (h : a ∈ (collect turn turns i).value) :
    ∃ j, (turn j).value = .add a := by
  induction turns generalizing i with
  | zero => cases h
  | succ turns ih =>
    rw [collect, value_bind] at h
    cases hturn : (turn i).value with
    | stop => simp [hturn] at h
    | skip =>
      rw [hturn] at h
      exact ih h
    | add b =>
      rw [hturn] at h
      obtain rfl | h := List.mem_cons.mp h
      · exact ⟨i, hturn⟩
      · exact ih h

/-- What holds of a loop's state and is kept by its turns holds after it. -/
theorem safe_foldlM {γ : Type} {f : β → γ → Reads β} {P : β → Prop} {cs : List γ}
    (hsafe : ∀ b, ∀ c ∈ cs, P b → (f b c).Safe) (hkeep : ∀ b, ∀ c ∈ cs, P b → P (f b c).value)
    {b : β} (hb : P b) : (cs.foldlM f b).Safe ∧ P (cs.foldlM f b).value := by
  induction cs generalizing b with
  | nil => exact ⟨safe_pure _, hb⟩
  | cons c cs ih =>
    have hrest := ih (fun b c hc => hsafe b c (List.mem_cons_of_mem _ hc))
      (fun b c hc => hkeep b c (List.mem_cons_of_mem _ hc))
      (hkeep b c List.mem_cons_self hb)
    rw [List.foldlM_cons]
    exact ⟨(safe_bind _ _).mpr ⟨hsafe b c List.mem_cons_self hb, hrest.1⟩, hrest.2⟩

/-- A loop that appends what each turn has, as long as that fits. -/
theorem value_foldlM_append {γ : Type} {f : List β → γ → Reads (List β)} {g : γ → List β} {cap : ℕ}
    {cs : List γ}
    (hturn : ∀ bs, ∀ c ∈ cs, (bs ++ g c).length ≤ cap → (f bs c).value = bs ++ g c)
    {bs : List β} (hcap : (bs ++ cs.flatMap g).length ≤ cap) :
    (cs.foldlM f bs).value = bs ++ cs.flatMap g := by
  induction cs generalizing bs with
  | nil => exact (List.append_nil bs).symm
  | cons c cs ih =>
    rw [List.flatMap_cons, ← List.append_assoc] at hcap ⊢
    have hfirst := hturn bs c List.mem_cons_self
      (by rw [List.length_append] at hcap; exact Nat.le_trans (Nat.le_add_right _ _) hcap)
    rw [List.foldlM_cons, value_bind, hfirst]
    exact ih (fun bs c hc => hturn bs c (List.mem_cons_of_mem _ hc)) hcap

end Reads

end Infra
