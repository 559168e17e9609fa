import Mathlib.Data.List.Infix
import WinSys.Infra.Bytes
import WinSys.Infra.Reads
import WinSys.Infra.Wide

/-!
# Payload readers

A reader goes over a payload in order. A read past the end makes it fail: what it gives then is
zero, and it stays at the end.

`Parses` says that a reader takes an encoding to its value, with anything behind it, and fails on
each of its strict prefixes; `Sticky` that a failure stays and that no access is outside. Both are
checked along a reader by its binds.
-/

namespace Infra

open Reads

structure Cursor where
  pos : ℕ := 0
  ok : Bool := true
deriving DecidableEq, Repr

def Cursor.Failed (data : Bytes) (c : Cursor) : Prop := c.ok = false ∧ c.pos = data.length

def PayloadReader (α : Type) : Type := Bytes → Cursor → Reads (α × Cursor)

/-! ## encodings -/

/-- UTF-16 units as bytes. -/
def wideBytes (text : WString) : Bytes := text.flatMap fun ch => leBytes 2 ch.toNat

def zString (text : WString) : Bytes := wideBytes (text ++ [0])

@[simp]
theorem length_wideBytes (text : WString) : (wideBytes text).length = 2 * text.length := by
  induction text with
  | nil => rfl
  | cons ch text ih =>
    rw [wideBytes, List.flatMap_cons, List.length_append, length_leBytes, List.length_cons,
      ← wideBytes, ih]
    omega

theorem units_wideBytes_append (text : WString) (rest : Bytes) :
    units (wideBytes text ++ rest) = text ++ units rest := by
  induction text with
  | nil => rfl
  | cons ch text ih =>
    have hpair : leBytes 2 ch.toNat = [ch.toNat.toUInt8, (ch.toNat / 256).toUInt8] := rfl
    have hch : u16 [ch.toNat.toUInt8, (ch.toNat / 256).toUInt8] = ch := by
      rw [← hpair, ← List.append_nil (leBytes _ _), u16_append]
    rw [wideBytes, List.flatMap_cons, ← wideBytes, hpair]
    simp only [List.cons_append, List.nil_append, units, hch]
    rw [ih]

theorem units_wideBytes (text : WString) : units (wideBytes text) = text := by
  have h := units_wideBytes_append text []
  rw [List.append_nil] at h
  exact h.trans (List.append_nil text)

theorem units_zString (text : WString) : units (zString text) = text ++ [0] := units_wideBytes _

/-! ## readers -/

namespace PayloadReader

variable {α β : Type}

instance : Monad PayloadReader where
  pure a := fun _ c => pure (a, c)
  bind m f := fun data c => do
    let (a, c) ← m data c
    f a data c

/-- A read past the end. -/
def fail (a : α) : PayloadReader α := fun data _ => pure (a, ⟨data.length, false⟩)

/-- The bytes of a value of a size. -/
def get (size : ℕ) : PayloadReader Bytes := fun data c =>
  if data.length - c.pos < size then fail (List.replicate size 0) data c
  else return (← raw data c.pos size, { c with pos := c.pos + size })

/-- A NUL-terminated UTF-16 string. -/
def string : PayloadReader WString := fun data c => do
  let text := units (data.drop c.pos)
  let i := text.idxOf 0
  let _ ← raw data c.pos (2 * min (i + 1) text.length)
  if i < text.length then return (text.take i, { c with pos := c.pos + (i + 1) * 2 })
  else fail [] data c

/-! ## what a reader does -/

structure Parses (m : PayloadReader α) (bytes : Bytes) (a : α) : Prop where
  whole : ∀ data c rest, c.ok = true → data.drop c.pos = bytes ++ rest →
    (m data c).value = (a, ⟨c.pos + bytes.length, true⟩)
  cut : ∀ data c, c.ok = true → c.pos ≤ data.length → data.drop c.pos <+: bytes →
    data.drop c.pos ≠ bytes → (m data c).value.2.Failed data

class Sticky (m : PayloadReader α) : Prop where
  safe : ∀ data c, c.pos ≤ data.length → (m data c).Safe
  inside : ∀ data c, c.pos ≤ data.length → (m data c).value.2.pos ≤ data.length
  failed : ∀ data c, c.Failed data → (m data c).value.2.Failed data

theorem value_bind (m : PayloadReader α) (f : α → PayloadReader β) (data : Bytes) (c : Cursor) :
    ((m >>= f) data c).value
      = (f (m data c).value.1 data (m data c).value.2).value := rfl

theorem parses_pure (a : α) : Parses (pure a) [] a where
  whole _ c _ hok _ := by
    obtain ⟨pos, ok⟩ := c
    cases hok
    rfl
  cut _ _ _ _ hpre hne := absurd (List.prefix_nil.mp hpre) hne

instance (a : α) : Sticky (pure a) where
  safe _ _ _ := safe_pure _
  inside _ _ h := h
  failed _ _ h := h

instance {m : PayloadReader α} {f : α → PayloadReader β} [hm : Sticky m]
    [hf : ∀ a, Sticky (f a)] : Sticky (m >>= f) where
  safe data c h := (safe_bind (m data c) fun r => f r.1 data r.2).mpr
    ⟨hm.safe data c h, (hf _).safe data _ (hm.inside data c h)⟩
  inside data c h := (hf _).inside data _ (hm.inside data c h)
  failed data c h := (hf _).failed data _ (hm.failed data c h)

/-- One encoding behind another. -/
theorem Parses.bind {m : PayloadReader α} {f : α → PayloadReader β} {bytes more : Bytes} {a : α}
    {b : β} [hsticky : ∀ a, Sticky (f a)] (hm : Parses m bytes a) (hf : Parses (f a) more b) :
    Parses (m >>= f) (bytes ++ more) b where
  whole data c rest hok hdata := by
    rw [List.append_assoc] at hdata
    have hnext : data.drop (c.pos + bytes.length) = more ++ rest := by
      rw [← List.drop_drop, hdata, List.drop_left]
    rw [value_bind, hm.whole data c _ hok hdata]
    refine (hf.whole data ⟨c.pos + bytes.length, true⟩ rest rfl hnext).trans ?_
    rw [List.length_append, Nat.add_assoc]
  cut data c hok hpos hpre hne := by
    rw [value_bind]
    by_cases hlt : (data.drop c.pos).length < bytes.length
    · -- the cut is in the first
      have hpre' : data.drop c.pos <+: bytes :=
        List.prefix_of_prefix_length_le hpre (List.prefix_append _ _) hlt.le
      refine (hsticky _).failed data _ (hm.cut data c hok hpos hpre' fun h => ?_)
      rw [h] at hlt
      exact absurd hlt (Nat.lt_irrefl _)
    · -- the first is whole
      obtain ⟨rest, hrest⟩ : bytes <+: data.drop c.pos :=
        List.prefix_of_prefix_length_le (List.prefix_append _ _) hpre (Nat.le_of_not_lt hlt)
      have hnext : data.drop (c.pos + bytes.length) = rest := by
        rw [← List.drop_drop, ← hrest, List.drop_left]
      rw [hm.whole data c rest hok hrest.symm]
      rw [← hrest, List.prefix_append_right_inj] at hpre
      have hlength := congrArg List.length hrest
      rw [List.length_append, List.length_drop] at hlength
      refine hf.cut data ⟨c.pos + bytes.length, true⟩ rfl (by simp only; omega) ?_ ?_
      · exact hnext ▸ hpre
      · intro h
        have hr : rest = more := hnext.symm.trans h
        exact hne (hrest.symm.trans (congrArg _ hr))

theorem Parses.map {m : PayloadReader α} {bytes : Bytes} {a : α} (hm : Parses m bytes a)
    (f : α → β) : Parses (do return f (← m)) bytes (f a) := by
  simpa using hm.bind (f := fun a => pure (f a)) (parses_pure (f a))

instance {p : Prop} [Decidable p] {m n : PayloadReader α} [hm : Sticky m] [hn : Sticky n] :
    Sticky (if p then m else n) := by
  split
  · exact hm
  · exact hn

/-! ## the reads -/

instance (a : α) : Sticky (fail a) where
  safe _ _ _ := safe_pure _
  inside _ _ _ := Nat.le_refl _
  failed _ _ _ := ⟨rfl, rfl⟩

instance (size : ℕ) : Sticky (get size) where
  safe data c h := by
    unfold get
    split
    · exact safe_pure _
    · simp only [safe_bind, safe_raw, safe_pure, and_true]
      omega
  inside data c h := by
    unfold get
    split
    · exact Nat.le_refl _
    · show c.pos + size ≤ data.length
      omega
  failed data c h := by
    obtain ⟨hok, hpos⟩ := h
    unfold get
    split
    · exact ⟨rfl, rfl⟩
    · refine ⟨hok, ?_⟩
      show c.pos + size = data.length
      omega

theorem parses_get (bytes : Bytes) : Parses (get bytes.length) bytes bytes where
  whole data c rest hok hdata := by
    have hlength := congrArg List.length hdata
    rw [List.length_drop, List.length_append] at hlength
    obtain ⟨pos, ok⟩ := c
    cases hok
    rw [get, if_neg (by simp only at hlength ⊢; omega)]
    simp [hdata]
  cut data c hok hpos hpre hne := by
    have hlt : data.length - c.pos < bytes.length := by
      rw [← List.length_drop]
      refine Nat.lt_of_le_of_ne hpre.length_le fun h => hne ?_
      exact hpre.eq_of_length h
    rw [get, if_pos hlt]
    exact ⟨rfl, rfl⟩

theorem parses_get_of_length {bytes : Bytes} {size : ℕ} (h : bytes.length = size) :
    Parses (get size) bytes bytes := h ▸ parses_get bytes

instance : Sticky string where
  safe data c h := by
    have hlength := length_units (data.drop c.pos)
    rw [List.length_drop] at hlength
    unfold string
    refine (safe_bind _ _).mpr ⟨?_, Safe.ite (fun _ => safe_pure _) fun _ => safe_pure _⟩
    rw [safe_raw]
    omega
  inside data c h := by
    have hlength := length_units (data.drop c.pos)
    rw [List.length_drop] at hlength
    unfold string
    simp only [Reads.value_bind]
    split
    · show c.pos + _ ≤ _
      omega
    · exact Nat.le_refl _
  failed data c h := by
    obtain ⟨hok, hpos⟩ := h
    have hlength := length_units (data.drop c.pos)
    rw [List.length_drop] at hlength
    unfold string
    simp only [Reads.value_bind]
    split
    · omega
    · exact ⟨rfl, rfl⟩

/-- A strict prefix of a string without its NUL has no NUL. -/
theorem parses_string {text : WString} (h : 0 ∉ text) : Parses string (zString text) text where
  whole data c rest hok hdata := by
    obtain ⟨pos, ok⟩ := c
    cases hok
    have hunits : units (data.drop pos) = text ++ 0 :: units rest := by
      simp only at hdata
      rw [hdata, zString, units_wideBytes_append, List.append_assoc]
      rfl
    have hidx : (text ++ 0 :: units rest).idxOf 0 = text.length := by
      rw [List.idxOf_append_of_notMem h, List.idxOf_cons_self, Nat.add_zero]
    have hlt : text.length < (text ++ 0 :: units rest).length := by simp
    simp only [string, hunits, Reads.value_bind, hidx, if_pos hlt]
    rw [List.take_left]
    simp [zString, Nat.mul_comm]
  cut data c hok hpos hpre hne := by
    have hnotMem : 0 ∉ units (data.drop c.pos) := by
      obtain ⟨rest, hrest⟩ := hpre
      have hshort : (data.drop c.pos).length < (zString text).length := by
        refine Nat.lt_of_le_of_ne (List.IsPrefix.length_le ⟨rest, hrest⟩) fun hl => hne ?_
        exact List.IsPrefix.eq_of_length ⟨rest, hrest⟩ hl
      rw [List.prefix_iff_eq_take.mp ⟨rest, hrest⟩, units_take, units_zString]
      simp only [zString, length_wideBytes, List.length_append, List.length_singleton] at hshort
      rw [List.take_append_of_le_length (by omega)]
      exact fun hm => h (List.mem_of_mem_take hm)
    have hidx : ¬ (units (data.drop c.pos)).idxOf 0 < (units (data.drop c.pos)).length := by
      rw [List.idxOf_lt_length_iff]
      exact hnotMem
    simp only [string, Reads.value_bind, if_neg hidx]
    exact ⟨rfl, rfl⟩

/-! ## the types -/

def uint16 : PayloadReader UInt16 := do return u16 (← get 2)

def uint32 : PayloadReader UInt32 := do return u32 (← get 4)

def uint64 : PayloadReader UInt64 := do return u64 (← get 8)

instance : Sticky uint16 := inferInstanceAs (Sticky (do return u16 (← get 2)))

instance : Sticky uint32 := inferInstanceAs (Sticky (do return u32 (← get 4)))

instance : Sticky uint64 := inferInstanceAs (Sticky (do return u64 (← get 8)))

theorem parses_uint16 (n : UInt16) : Parses uint16 (leBytes 2 n.toNat) n := by
  have h := (parses_get_of_length (length_leBytes 2 n.toNat)).map u16
  rw [u16_leBytes] at h
  exact h

theorem parses_uint32 (n : UInt32) : Parses uint32 (leBytes 4 n.toNat) n := by
  have h := (parses_get_of_length (length_leBytes 4 n.toNat)).map u32
  rw [u32_leBytes] at h
  exact h

theorem parses_uint64 (n : UInt64) : Parses uint64 (leBytes 8 n.toNat) n := by
  have h := (parses_get_of_length (length_leBytes 8 n.toNat)).map u64
  rw [u64_leBytes] at h
  exact h

/-- A `GUID`, as it lies in memory. -/
def guid : PayloadReader (Vector UInt8 16) := do
  let bytes ← get 16
  return .ofFn fun i => u8At bytes i

instance : Sticky guid :=
  inferInstanceAs (Sticky (do
    let bytes ← get 16
    return Vector.ofFn fun i : Fin 16 => u8At bytes i))

theorem parses_guid (g : Vector UInt8 16) : Parses guid g.toList g := by
  have hlength : g.toList.length = 16 := g.length_toList
  have hback : Vector.ofFn (fun i : Fin 16 => u8At g.toList i) = g := by
    refine Vector.ext fun i hi => ?_
    have hlt : i < g.toList.length := by omega
    have hget : g.toList[i]? = some g.toList[i] := List.getElem?_eq_getElem hlt
    rw [Vector.getElem_ofFn, u8At, List.getD_eq_getElem?_getD, hget, Option.getD_some,
      Vector.getElem_toList]
  have h := (parses_get_of_length hlength).map fun bytes => Vector.ofFn fun i : Fin 16 => u8At bytes i
  rw [hback] at h
  exact h

/-- `Ok`. -/
def isOk : PayloadReader Bool := fun _ c => pure (c.ok, c)

instance : Sticky isOk where
  safe _ _ _ := safe_pure _
  inside _ _ h := h
  failed _ _ h := h

theorem parses_isOk : Parses isOk [] true where
  whole _ c _ hok _ := by
    obtain ⟨pos, ok⟩ := c
    cases hok
    rfl
  cut _ _ _ _ hpre hne := absurd (List.prefix_nil.mp hpre) hne

/-! ## a whole payload -/

/-- What a reader makes of a payload from its start: none when it failed. -/
def read (m : PayloadReader α) (data : Bytes) : Reads (Option α) := do
  let (a, c) ← m data {}
  return if c.ok then some a else none

variable {m : PayloadReader α} {bytes : Bytes} {a : α}

theorem Parses.read_append (hm : Parses m bytes a) (rest : Bytes) :
    (read m (bytes ++ rest)).value = some a := by
  have h := hm.whole (bytes ++ rest) {} rest rfl rfl
  simp only [read, Reads.value_bind, h]
  rfl

theorem Parses.read_cut (hm : Parses m bytes a) {cut : Bytes} (hpre : cut <+: bytes)
    (hne : cut ≠ bytes) : (read m cut).value = none := by
  have h := (hm.cut cut {} rfl (Nat.zero_le _) hpre hne).1
  simp only [read, Reads.value_bind, h]
  rfl

theorem safe_read [hm : Sticky m] (data : Bytes) : (read m data).Safe :=
  (safe_bind _ _).mpr ⟨hm.safe data {} (Nat.zero_le _), safe_pure _⟩

/-! ## readers of fields -/

/-- A reader takes so many bytes, whatever they are, to a value of them, and fails where there are
fewer. -/
structure Takes (m : PayloadReader α) (size : ℕ) (f : Bytes → α) : Prop where
  whole : ∀ data c, c.ok = true → c.pos + size ≤ data.length →
    (m data c).value = (f (data.drop c.pos), ⟨c.pos + size, true⟩)
  cut : ∀ data c, c.ok = true → c.pos ≤ data.length → data.length < c.pos + size →
    (m data c).value.2.Failed data

theorem takes_pure (a : α) : Takes (pure a) 0 fun _ => a where
  whole _ c hok _ := by
    obtain ⟨pos, ok⟩ := c
    cases hok
    rfl
  cut _ _ _ hpos hlt := absurd hpos (Nat.not_le_of_lt hlt)

theorem takes_get (size : ℕ) : Takes (get size) size (List.take size) where
  whole data c hok hpos := by
    obtain ⟨pos, ok⟩ := c
    cases hok
    rw [get, if_neg (by simp only at hpos ⊢; omega)]
    rfl
  cut data c _ hpos hlt := by
    rw [get, if_pos (by omega)]
    exact ⟨rfl, rfl⟩

/-- One field behind another. -/
theorem Takes.bind {m : PayloadReader α} {k : α → PayloadReader β} {size more : ℕ} {f : Bytes → α}
    {g : α → Bytes → β} [hsticky : ∀ a, Sticky (k a)] (hm : Takes m size f)
    (hk : ∀ a, Takes (k a) more (g a)) :
    Takes (m >>= k) (size + more) fun bytes => g (f bytes) (bytes.drop size) where
  whole data c hok hpos := by
    rw [value_bind, hm.whole data c hok (by omega)]
    refine ((hk _).whole data ⟨c.pos + size, true⟩ rfl (by simp only; omega)).trans ?_
    rw [List.drop_drop, Nat.add_assoc]
  cut data c hok hpos hlt := by
    rw [value_bind]
    by_cases hfirst : c.pos + size ≤ data.length
    · rw [hm.whole data c hok hfirst]
      exact (hk _).cut data ⟨c.pos + size, true⟩ rfl hfirst (by simp only; omega)
    · exact (hsticky _).failed data _ (hm.cut data c hok hpos (Nat.lt_of_not_le hfirst))

theorem Takes.map {m : PayloadReader α} {size : ℕ} {f : Bytes → α} (hm : Takes m size f)
    (g : α → β) : Takes (do return g (← m)) size fun bytes => g (f bytes) :=
  hm.bind fun a => takes_pure (g a)

theorem takes_uint16 : Takes uint16 2 u16 := by
  have h := (takes_get 2).map u16
  simp only [u16_take] at h
  exact h

theorem takes_uint32 : Takes uint32 4 u32 := by
  have h := (takes_get 4).map u32
  simp only [u32_take] at h
  exact h

theorem takes_uint64 : Takes uint64 8 u64 := by
  have h := (takes_get 8).map u64
  simp only [u64_take] at h
  exact h

/-- Where a read's result is known, what goes on from there. -/
theorem value_bind_of_eq {m : PayloadReader α} {f : α → PayloadReader β} {data : Bytes}
    {c c' : Cursor} {a : α} (h : (m data c).value = (a, c')) :
    ((m >>= f) data c).value = (f a data c').value := by
  rw [value_bind, h]

/-- Where a read failed, the check of `Ok` says so. -/
theorem value_bind_isOk_of_failed {m : PayloadReader α} {f : α → Bool → PayloadReader β}
    {data : Bytes} {c : Cursor} (h : (m data c).value.2.Failed data) :
    ((do let a ← m; let ok ← isOk; f a ok) data c).value
      = (f (m data c).value.1 false data (m data c).value.2).value := by
  rw [value_bind, value_bind]
  show (f _ (m data c).value.2.ok data (m data c).value.2).value = _
  rw [h.1]

/-- What a reader of fields makes of a payload. -/
theorem Takes.read {size : ℕ} {f : Bytes → α} (hm : Takes m size f) (data : Bytes) :
    (read m data).value = if data.length < size then none else some (f data) := by
  by_cases hlt : data.length < size
  · have hcut := (hm.cut data {} rfl (Nat.zero_le _) (by simp only; omega)).1
    simp only [PayloadReader.read, Reads.value_bind, hcut, if_pos hlt]
    rfl
  · have hwhole := hm.whole data {} rfl (by simp only; omega)
    simp only [PayloadReader.read, Reads.value_bind, hwhole, if_neg hlt]
    rfl

end PayloadReader

end Infra
