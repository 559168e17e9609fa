import Mathlib.Data.Fin.Basic
import Mathlib.Data.Fintype.Basic
import Mathlib.Logic.Function.Basic

/-!
# Two buffers filled in turn

A component that keeps what it got last while it gets the next has two buffers and fills them in
turn. An attempt that fails has filled the buffer that is next too, but it stays the next one. An
attempt may also give the buffer's memory back and take new memory: what pointed into it dangles
from then on.

* `Storage`: a buffer's memory
* `Since`, `PlacedSince`: how long ago something was put in a buffer, and whether it is still there
* `Filled`, `Keeps`: what was put in the buffers, and what they have now
-/

namespace Infra

variable {α β : Type*}

/-! ## memory -/

/-- A buffer's memory. -/
structure Storage (β : Type*) where
  /-- The allocations so far. -/
  allocation : ℕ := 0
  /-- None while there is no memory. -/
  content : Option β := none

namespace Storage

variable (memory : Storage β)

def allocate (b : β) : Storage β := ⟨memory.allocation + 1, some b⟩

def release : Storage β := { memory with content := none }

def put (b : β) : Storage β := { memory with content := some b }

/-- What a pointer into an allocation reads: none if it dangles. -/
def read (allocation : ℕ) : Option β :=
  if allocation = memory.allocation then memory.content else none

/-- The allocation was given back. -/
def Gone (allocation : ℕ) : Prop := allocation ≤ memory.allocation ∧ memory.read allocation = none

variable {memory} {allocation : ℕ}

theorem read_self : memory.read memory.allocation = memory.content := if_pos rfl

theorem Gone.allocate (h : memory.Gone allocation) (b : β) : (memory.allocate b).Gone allocation :=
  ⟨Nat.le_succ_of_le h.1, if_neg (Nat.ne_of_lt (Nat.lt_succ_of_le h.1))⟩

theorem Gone.release (h : memory.Gone allocation) : memory.release.Gone allocation :=
  ⟨h.1, ite_self none⟩

theorem gone_release : memory.release.Gone memory.allocation := ⟨le_rfl, ite_self none⟩

theorem Gone.put (h : memory.Gone allocation) (hcontent : memory.content.isSome) (b : β) :
    (memory.put b).Gone allocation := by
  refine ⟨h.1, if_neg fun heq => ?_⟩
  have hread := h.2
  rw [heq] at hread
  change memory.read memory.allocation = none at hread
  rw [read_self] at hread
  rw [hread] at hcontent
  exact absurd hcontent Bool.false_ne_true

/-- What an attempt makes of a buffer's memory, `released` if it gave it back. -/
structure Follows (released : Bool) (before after : Storage β) : Prop where
  kept : before.content.isSome → released = false →
    after.allocation = before.allocation ∧ after.content.isSome
  released : before.content.isSome → released = true → after.Gone before.allocation
  gone : ∀ allocation, before.Gone allocation → after.Gone allocation

end Storage

/-! ## turns -/

/-- The buffer filled `age` turns ago, when the buffer `index` is next. -/
def slot (index : Fin 2) (age : ℕ) : Fin 2 := if age % 2 = 0 then index.rev else index

/-- The other one of two. -/
theorem rev_eq (index : Fin 2) : index.rev = 1 - index := by
  revert index
  decide

theorem one_sub_ne (index : Fin 2) : 1 - index ≠ index := by
  revert index
  decide

theorem one_sub_one_sub (index : Fin 2) : 1 - (1 - index) = index := by
  revert index
  decide

theorem slot_even {index : Fin 2} {age : ℕ} (h : age % 2 = 0) : slot index age = 1 - index := by
  rw [slot, if_pos h, rev_eq]

theorem slot_odd {index : Fin 2} {age : ℕ} (h : ¬age % 2 = 0) : slot index age = index := if_neg h

/-- A turn later. -/
theorem slot_succ (index : Fin 2) (age : ℕ) : slot (1 - index) (age + 1) = slot index age := by
  by_cases h : age % 2 = 0
  · rw [slot_odd (by omega), slot_even h]
  · rw [slot_even (by omega), slot_odd h, one_sub_one_sub]

@[simp]
theorem slot_zero (index : Fin 2) : slot (1 - index) 0 = index := by
  rw [slot_even rfl, one_sub_one_sub]

/-! ## places -/

/-- A place in the buffers: which one, and which allocation of it. -/
structure Place where
  buffer : Fin 2
  allocation : ℕ
deriving DecidableEq, Repr

/-- What is at a place: none if its memory was given back. -/
def readAt (buffers : Fin 2 → Storage β) (place : Place) : Option β :=
  (buffers place.buffer).read place.allocation

/-- How long ago a buffer was filled. -/
structure Since where
  /-- How many turns ago. -/
  age : ℕ := 0
  /-- Whether its memory was given back since. -/
  freed : Bool := false
deriving DecidableEq, Repr

/-- An attempt to fill the next buffer. -/
def Since.attempt (since : Since) (released : Bool) : Since :=
  { since with freed := since.freed || since.age % 2 == 1 && released }

/-- The attempt filled it. -/
def Since.turn (since : Since) : Since := { since with age := since.age + 1 }

/-- A place filled then: it dangles exactly when its memory was given back since. -/
structure PlacedSince (buffers : Fin 2 → Storage β) (index : Fin 2) (since : Since) (place : Place) :
    Prop where
  buffer : place.buffer = slot index since.age
  held : since.freed = false → place.allocation = (buffers place.buffer).allocation ∧
    (buffers place.buffer).content.isSome
  gone : since.freed = true → (buffers place.buffer).Gone place.allocation

namespace PlacedSince

variable {buffers : Fin 2 → Storage β} {index : Fin 2} {since : Since} {place : Place}

/-- What was just filled. -/
theorem start (h : (buffers index).content.isSome) :
    PlacedSince buffers (1 - index) {} ⟨index, (buffers index).allocation⟩ where
  buffer := (slot_zero index).symm
  held _ := ⟨rfl, h⟩
  gone h := absurd h Bool.false_ne_true

theorem turn (h : PlacedSince buffers index since place) :
    PlacedSince buffers (1 - index) since.turn place where
  buffer := h.buffer.trans (slot_succ index since.age).symm
  held := h.held
  gone := h.gone

theorem attempt (h : PlacedSince buffers index since place) {released : Bool} {memory : Storage β}
    (hf : Storage.Follows released (buffers index) memory) :
    PlacedSince (Function.update buffers index memory) index (since.attempt released) place := by
  by_cases hage : since.age % 2 = 0
  · -- the other buffer's place
    have hne : place.buffer ≠ index := by
      rw [h.buffer, slot_even hage]
      exact one_sub_ne index
    have hfreed : (since.attempt released).freed = since.freed := by simp [Since.attempt, hage]
    refine ⟨h.buffer, fun hheld => ?_, fun hgone => ?_⟩
    · rw [Function.update_of_ne hne]
      exact h.held (hfreed ▸ hheld)
    · rw [Function.update_of_ne hne]
      exact h.gone (hfreed ▸ hgone)
  · have hbuffer : place.buffer = index := by rw [h.buffer, slot_odd hage]
    have hfreed : (since.attempt released).freed = (since.freed || released) := by
      have hodd : since.age % 2 = 1 := by omega
      simp [Since.attempt, hodd]
    refine ⟨h.buffer, fun hheld => ?_, fun hgone => ?_⟩
    · rw [hfreed, Bool.or_eq_false_iff] at hheld
      obtain ⟨hallocation, hcontent⟩ := h.held hheld.1
      rw [hbuffer] at hallocation hcontent
      rw [hbuffer, Function.update_self, hallocation]
      obtain ⟨hsame, hsome⟩ := hf.kept hcontent hheld.2
      exact ⟨hsame.symm, hsome⟩
    · rw [hbuffer, Function.update_self]
      rw [hfreed, Bool.or_eq_true] at hgone
      cases hwas : since.freed with
      | true =>
        have hmemory := h.gone hwas
        rw [hbuffer] at hmemory
        exact hf.gone _ hmemory
      | false =>
        obtain ⟨hallocation, hcontent⟩ := h.held hwas
        rw [hbuffer] at hallocation hcontent
        rw [hallocation]
        exact hf.released hcontent (hgone.resolve_left (by simp [hwas]))

theorem readAt_held (h : PlacedSince buffers index since place) (hfreed : since.freed = false) :
    readAt buffers place = (buffers (slot index since.age)).content := by
  obtain ⟨hallocation, -⟩ := h.held hfreed
  rw [readAt, hallocation, Storage.read_self, h.buffer]

theorem isSome_readAt (h : PlacedSince buffers index since place) (hfreed : since.freed = false) :
    (readAt buffers place).isSome := by
  rw [h.readAt_held hfreed, ← h.buffer]
  exact (h.held hfreed).2

theorem readAt_gone (h : PlacedSince buffers index since place) (hfreed : since.freed = true) :
    readAt buffers place = none :=
  (h.gone hfreed).2

end PlacedSince

/-! ## contents -/

/-- What was put in two buffers. -/
structure Filled (α : Type*) where
  /-- The last one first. -/
  past : List α := []
  /-- What the last attempt left in the buffer that is next, if it failed. -/
  left : Option α := none
  /-- Whether the memory of the buffer that is next was given back since it was filled. -/
  lost : Bool := false

namespace Filled

variable (f : Filled α) (a : α)

def put : Filled α := ⟨a :: f.past, none, false⟩

def fail (released : Bool) : Filled α := { f with left := some a, lost := f.lost || released }

/-- What the buffer filled `age` turns ago has now. -/
def now (age : ℕ) : Option α := if age % 2 = 0 then f.past[0]? else f.left.or f.past[1]?

/-- Whether that is still what was put in it then. -/
def Intact (since : Since) : Prop :=
  since.freed = false ∧ (since.age = 0 ∨ since.age = 1 ∧ f.left = none)

instance : DecidablePred f.Intact := fun _ => inferInstanceAs (Decidable (_ ∧ _))

variable {f a} {since : Since}

/-- What was put in a buffer is there for two turns, or until an attempt fails in the second. -/
theorem now_eq (ha : f.past[since.age]? = some a) (h : f.Intact since) : f.now since.age = some a := by
  rcases h.2 with hage | ⟨hage, hleft⟩
  · rw [hage] at ha
    rw [now, hage, if_pos rfl, ha]
  · rw [hage] at ha
    rw [now, hage, if_neg (by decide), hleft, Option.none_or, ha]

end Filled

/-- The buffers have what was put in them. -/
structure Keeps (content : α → β) (buffers : Fin 2 → Storage β) (index : Fin 2) (f : Filled α) :
    Prop where
  last : ∀ a, f.past[0]? = some a → (buffers (1 - index)).content = some (content a)
  next : f.lost = false → ∀ a, f.past[1]? = some a →
    (buffers index).content = some (content (f.left.getD a))

section Keeps

variable {content : α → β} {buffers : Fin 2 → Storage β} {index : Fin 2} {f : Filled α}

theorem keeps_start : Keeps content buffers index {} where
  last _ ha := by simp at ha
  next _ _ ha := by simp at ha

/-- A buffer is filled, and the other one is next. -/
theorem Keeps.put (h : Keeps content buffers index f) {a : α} {memory : Storage β}
    (hmemory : memory.content = some (content a)) :
    Keeps content (Function.update buffers index memory) (1 - index) (f.put a) where
  last b hb := by
    obtain rfl : a = b := Option.some.inj hb
    rw [one_sub_one_sub, Function.update_self, hmemory]
  next _ b hb := by
    rw [Function.update_of_ne (one_sub_ne _)]
    exact h.last b hb

/-- A buffer is filled in vain. -/
theorem Keeps.fail (h : Keeps content buffers index f) {a : α} {released : Bool} {memory : Storage β}
    (hmemory : (buffers index).content.isSome → released = false →
      memory.content = some (content a)) :
    Keeps content (Function.update buffers index memory) index (f.fail a released) where
  last b hb := by
    rw [Function.update_of_ne (one_sub_ne _)]
    exact h.last b hb
  next hlost b hb := by
    obtain ⟨hlost, hreleased⟩ := Bool.or_eq_false_iff.mp hlost
    rw [Function.update_self]
    exact hmemory (by rw [h.next hlost b hb]; rfl) hreleased

/-- Whose memory is lost that was put in a buffer that is next. -/
def Filled.Tells (f : Filled α) (since : Since) : Prop :=
  since.age % 2 = 1 → f.lost = true → since.freed = true

theorem Filled.Tells.attempt {since : Since} (h : f.Tells since) (a : α) (released : Bool) :
    (f.fail a released).Tells (since.attempt released) := by
  intro hage hlost
  have hodd : since.age % 2 = 1 := hage
  rcases Bool.or_eq_true_iff.mp hlost with hlost | hreleased
  · simp [Since.attempt, h hodd hlost]
  · simp [Since.attempt, hodd, hreleased]

theorem Filled.tells_put (f : Filled α) (a : α) (since : Since) : (f.put a).Tells since :=
  fun _ hlost => absurd hlost Bool.false_ne_true

/-- What is read at a place. -/
theorem Keeps.readAt (h : Keeps content buffers index f) {since : Since} {place : Place}
    (hplaced : PlacedSince buffers index since place) (htells : f.Tells since)
    (hfreed : since.freed = false) {a : α} (ha : f.past[since.age]? = some a) :
    ∃ now, f.now since.age = some now ∧ Infra.readAt buffers place = some (content now) := by
  have hlt := (List.getElem?_eq_some_iff.mp ha).1
  rw [hplaced.readAt_held hfreed]
  by_cases hage : since.age % 2 = 0
  · obtain ⟨b, hb⟩ : ∃ b, f.past[0]? = some b := ⟨_, List.getElem?_eq_getElem (by omega)⟩
    refine ⟨b, ?_, ?_⟩
    · rw [Filled.now, if_pos hage, hb]
    · rw [slot_even hage, h.last b hb]
  · obtain ⟨b, hb⟩ : ∃ b, f.past[1]? = some b := ⟨_, List.getElem?_eq_getElem (by omega)⟩
    have hlost : f.lost = false := by
      cases hlost : f.lost with
      | false => rfl
      | true => exact absurd (htells (by omega) hlost) (by simp [hfreed])
    refine ⟨f.left.getD b, ?_, ?_⟩
    · rw [Filled.now, if_neg hage, hb]
      cases f.left <;> rfl
    · rw [slot_odd hage, h.next hlost b hb]

end Keeps

end Infra
