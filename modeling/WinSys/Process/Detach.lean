import WinSys.Infra.Copy
import WinSys.SystemInfo.Processes

/-!
# A terminated process's own copy

`ProcessInfo::Detach` copies a process's entry of a snapshot before the buffer is filled anew, and
sets the object's pointers, and the image name's in the copy, to the copies of what they led to.
The last entry of a snapshot does not say how long it is; what it has says so.

* `detach`: the source
* `EntryAt`: how the system lays out an entry
* `entrySize_spec`: the size that is copied has all of the entry
* `detach_shown`: what is shown of the process afterwards
-/

namespace WinSys.Process.Detach

open Infra Reads SystemInfo

/-! ## the source -/

/-- A block of memory. -/
structure Block where
  base : UInt64
  bytes : Bytes

/-- Where a pointer leads in the block. -/
def Block.place (b : Block) (p : UInt64) : ℕ := (p - b.base).toNat

/-- What an object points to, 0 for a null pointer. -/
structure ProcessInfo where
  nativeInfo : UInt64 := 0
  extendedInfo : UInt64 := 0
  packageFullName : UInt64 := 0
  /-- Its thread objects, by address. -/
  threads : List ℕ := []
  /-- The copy, after `Detach`. -/
  detached : Option Block := none

/-- `GetLengthSid` -/
def getLengthSid (bytes : Bytes) (place : ℕ) : Reads ℕ := do
  return 8 + 4 * (u8At (← raw bytes (place + 1) 1) 0).toNat

/-- Where the threads of an entry end. -/
def threadsEnd (count : UInt32) : ℕ := processSize + threadSize true * count.toNat

section Source

variable (b : Block) (extensionSize : ℕ)

/-- How far an entry's extension goes, from its start. -/
def extensionEnd (place : ℕ) : Reads ℕ := do
  let extension ← raw b.bytes place extensionSize
  let sid := (u32At extension 0x34).toNat
  let package := (u32At extension 0x38).toNat
  let size ← if sid = 0 then pure extensionSize
    else pure (max extensionSize (sid + (← getLengthSid b.bytes (place + sid))))
  if package = 0 then return size
  else return max size (package + 2 * ((← readText b.bytes (place + package)).length + 1))

def entrySize (o : ProcessInfo) : Reads ℕ := do
  let record ← raw b.bytes (b.place o.nativeInfo) processSize
  if u32At record 0 ≠ 0 then return (u32At record 0).toNat
  else do
    let threads := threadsEnd (u32At record 4)
    let size ← if o.extendedInfo = 0 then pure threads
      else pure (max threads ((o.extendedInfo - o.nativeInfo).toNat
        + (← extensionEnd b extensionSize (b.place o.extendedInfo))))
    let name := u64At record 0x40
    if o.nativeInfo < name then
      return max size ((name - o.nativeInfo).toNat + (u16At record 0x3A).toNat)
    else return size

/-- A pointer into an entry, in its copy at an address. -/
def moved (entry address p : UInt64) : UInt64 := if p = 0 then 0 else address + (p - entry)

/-- The image name's pointer goes to the copy, or the name is dropped. -/
def relocate (entry address : UInt64) (copy : Bytes) : Bytes :=
  let name := u64At copy 0x40
  if entry ≤ name ∧ name.toNat < entry.toNat + copy.length then
    patch copy 0x40 (leBytes 8 (moved entry address name).toNat)
  else patch copy 0x38 (List.replicate 16 0)

def detach (address : UInt64) (o : ProcessInfo) : Reads ProcessInfo :=
  if o.detached.isSome || o.nativeInfo = 0 then pure o
  else do
    let copy ← raw b.bytes (b.place o.nativeInfo) (← entrySize b extensionSize o)
    return {
      nativeInfo := address
      extendedInfo := moved o.nativeInfo address o.extendedInfo
      packageFullName := moved o.nativeInfo address o.packageFullName
      threads := []
      detached := some ⟨address, relocate o.nativeInfo address copy⟩ }

end Source

/-! ## what is shown of a process -/

/-- What is read of a process through its `NativeInfo` and `ExtendedInfo`. -/
structure Shown where
  /-- Of the structure, but the name's. -/
  fields : Bytes
  threads : Bytes
  imageName : WString
  /-- With the user's SID. -/
  extension : Option (Bytes × Option Bytes)

section Shown

variable (b : Block) (extensionSize : ℕ)

def readName (record : Bytes) : Reads WString :=
  if u64At record 0x40 = 0 then pure []
  else do
    return units (← raw b.bytes (b.place (u64At record 0x40)) (2 * ((u16At record 0x38).toNat / 2)))

/-- An extension with its SID. -/
def extensionAt (place : ℕ) : Reads (Bytes × Option Bytes) := do
  let extension ← raw b.bytes place extensionSize
  let sid := (u32At extension 0x34).toNat
  if sid = 0 then return (extension, none)
  else do
    let length ← getLengthSid b.bytes (place + sid)
    return (extension, some (← raw b.bytes (place + sid) length))

def readExtension (o : ProcessInfo) : Reads (Option (Bytes × Option Bytes)) :=
  if o.extendedInfo = 0 then pure none
  else do return some (← extensionAt b extensionSize (b.place o.extendedInfo))

def shown (o : ProcessInfo) : Reads Shown := do
  let record ← raw b.bytes (b.place o.nativeInfo) processSize
  let threads ← raw b.bytes (b.place o.nativeInfo + processSize)
    (threadSize true * (u32At record 4).toNat)
  let imageName ← readName b record
  let extension ← readExtension b extensionSize o
  return { fields := record.take 0x38 ++ record.drop 0x48, threads, imageName, extension }

def shownPackage (o : ProcessInfo) : Reads (Option WString) :=
  if o.packageFullName = 0 then pure none
  else do return some (← readText b.bytes (b.place o.packageFullName))

end Shown

/-! ## the layout -/

section Layout

variable (b : Block) (extensionSize : ℕ) (o : ProcessInfo)

/-- The process's structure. -/
def record : Bytes := (b.bytes.drop (b.place o.nativeInfo)).take processSize

/-- An entry's first `size` bytes have all its parts; the name and the extension are behind the
structure. -/
structure PartsIn (size : ℕ) : Prop where
  threads : threadsEnd (u32At (record b o) 4) ≤ size
  name : u64At (record b o) 0x40 = 0 ∨ o.nativeInfo < u64At (record b o) 0x40 ∧
    processSize ≤ (u64At (record b o) 0x40 - o.nativeInfo).toNat ∧
    (u64At (record b o) 0x40 - o.nativeInfo).toNat + (u16At (record b o) 0x3A).toNat ≤ size
  extension : o.extendedInfo ≠ 0 → processSize ≤ (o.extendedInfo - o.nativeInfo).toNat ∧
    (o.extendedInfo - o.nativeInfo).toNat
      + (extensionEnd b extensionSize (b.place o.extendedInfo)).value ≤ size

/-- How the system lays out an entry: it has the room up to the next one. -/
structure EntryAt (room : ℕ) : Prop where
  nativeInfo : o.nativeInfo ≠ 0
  inside : b.place o.nativeInfo + room ≤ b.bytes.length
  bytes_lt : b.bytes.length < 2 ^ 64
  link : u32At (record b o) 0 = 0 ∨ (u32At (record b o) 0).toNat = room
  parts : PartsIn b extensionSize o room
  length : (u16At (record b o) 0x38).toNat ≤ (u16At (record b o) 0x3A).toNat

/-- Where the entry's extension says the package name is. -/
def packageOffset : UInt32 :=
  u32At ((b.bytes.drop (b.place o.extendedInfo)).take extensionSize) 0x38

/-- The object's package name is the one of the entry. -/
def OwnPackage : Prop :=
  o.packageFullName = 0 ∨ o.extendedInfo ≠ 0 ∧ packageOffset b extensionSize o ≠ 0 ∧
    o.packageFullName = o.extendedInfo + (packageOffset b extensionSize o).toUInt64

end Layout

/-! ## the size -/

section Parts

variable {b : Block} {extensionSize place room : ℕ} {o : ProcessInfo}

theorem threadsEnd_ge (count : UInt32) : processSize ≤ threadsEnd count := Nat.le_add_right _ _

/-- A pointer into an entry that is in the block does not wrap. -/
theorem place_eq (room : ℕ) (hroom : b.place o.nativeInfo + room < 2 ^ 64) {p : UInt64}
    (hp : (p - o.nativeInfo).toNat ≤ room) :
    b.place p = b.place o.nativeInfo + (p - o.nativeInfo).toNat := by
  unfold Block.place at hroom ⊢
  have hb := b.base.toNat_lt
  have ho := o.nativeInfo.toNat_lt
  have hlt := p.toNat_lt
  rw [UInt64.toNat_sub] at hroom hp ⊢
  rw [UInt64.toNat_sub, UInt64.toNat_sub]
  omega

/-- Where a relocated pointer leads in the copy. -/
theorem place_moved {bytes : Bytes} {address p : UInt64} (hp : p ≠ 0) :
    (⟨address, bytes⟩ : Block).place (moved o.nativeInfo address p) = (p - o.nativeInfo).toNat := by
  rw [moved, if_neg hp, Block.place, UInt64.add_comm, UInt64.add_sub_cancel]

theorem moved_ne_zero {address p : UInt64} (ha : address ≠ 0) (hp : p ≠ 0)
    (htop : address.toNat + (p - o.nativeInfo).toNat < 2 ^ 64) :
    moved o.nativeInfo address p ≠ 0 := by
  rw [moved, if_neg hp]
  intro hzero
  have hne : address.toNat ≠ 0 := fun h => ha (UInt64.toNat_inj.mp h)
  have hsum := congrArg UInt64.toNat hzero
  rw [UInt64.toNat_add, Nat.mod_eq_of_lt htop, UInt64.toNat_zero] at hsum
  omega

/-- What an extension's end is past. -/
theorem le_extensionEnd {extension : Bytes}
    (he : (b.bytes.drop place).take extensionSize = extension) :
    extensionSize ≤ (extensionEnd b extensionSize place).value ∧
      ((u32At extension 0x34).toNat ≠ 0 → (u32At extension 0x34).toNat
          + (getLengthSid b.bytes (place + (u32At extension 0x34).toNat)).value
        ≤ (extensionEnd b extensionSize place).value) ∧
      ((u32At extension 0x38).toNat ≠ 0 → (u32At extension 0x38).toNat
          + 2 * ((readText b.bytes (place + (u32At extension 0x38).toNat)).value.length + 1)
        ≤ (extensionEnd b extensionSize place).value) := by
  unfold extensionEnd
  rw [value_bind, value_raw, he]
  by_cases hsid : (u32At extension 0x34).toNat = 0
  · by_cases hpackage : (u32At extension 0x38).toNat = 0
    · simp [hsid, hpackage]
    · simp [hsid, hpackage]
  · by_cases hpackage : (u32At extension 0x38).toNat = 0
    · simp [hsid, hpackage]
    · simp [hsid, hpackage]

theorem safe_extensionEnd
    (h : place + (extensionEnd b extensionSize place).value ≤ b.bytes.length) :
    (extensionEnd b extensionSize place).Safe := by
  obtain ⟨hsize, hsidEnd, hpackageEnd⟩ := @le_extensionEnd b extensionSize place _ rfl
  have hsafe (sid : ℕ) (hs : sid + (getLengthSid b.bytes (place + sid)).value
      ≤ (extensionEnd b extensionSize place).value) :
      (getLengthSid b.bytes (place + sid)).Safe := by
    rw [getLengthSid, value_bind, value_pure] at hs
    rw [getLengthSid, safe_bind, safe_raw, and_iff_left (safe_pure _)]
    omega
  have htext (package : ℕ) (hp : package
      + 2 * ((readText b.bytes (place + package)).value.length + 1)
      ≤ (extensionEnd b extensionSize place).value) :
      (readText b.bytes (place + package)).Safe := by
    rw [readText, value_bind, value_pure] at hp
    rw [readText, safe_bind, safe_raw, and_iff_left (safe_pure _)]
    omega
  unfold extensionEnd
  rw [safe_bind, safe_raw, value_raw]
  refine ⟨by omega, ?_⟩
  by_cases hsid : (u32At ((b.bytes.drop place).take extensionSize) 0x34).toNat = 0
  · by_cases hpackage : (u32At ((b.bytes.drop place).take extensionSize) 0x38).toNat = 0
    · simp [hsid, hpackage]
    · simpa [hsid, hpackage] using htext _ (hpackageEnd hpackage)
  · by_cases hpackage : (u32At ((b.bytes.drop place).take extensionSize) 0x38).toNat = 0
    · simpa [hsid, hpackage] using hsafe _ (hsidEnd hsid)
    · simpa [hsid, hpackage] using ⟨hsafe _ (hsidEnd hsid), htext _ (hpackageEnd hpackage)⟩

theorem EntryAt.safe_extension (h : EntryAt b extensionSize o room) (he : o.extendedInfo ≠ 0) :
    (extensionEnd b extensionSize (b.place o.extendedInfo)).Safe := by
  have hinside := h.inside
  have hlt := h.bytes_lt
  obtain ⟨-, hend⟩ := h.parts.extension he
  have hplace : b.place o.extendedInfo
      = b.place o.nativeInfo + (o.extendedInfo - o.nativeInfo).toNat :=
    place_eq room (by omega) (by omega)
  exact safe_extensionEnd (by omega)

/-- The size covers the entry and stays in its room. -/
theorem entrySize_spec (h : EntryAt b extensionSize o room) :
    (entrySize b extensionSize o).Safe ∧ (entrySize b extensionSize o).value ≤ room ∧
      PartsIn b extensionSize o (entrySize b extensionSize o).value := by
  have hfirst := threadsEnd_ge (u32At (record b o) 4)
  have hthreads := h.parts.threads
  have hinside := h.inside
  have hrecord : b.place o.nativeInfo + processSize ≤ b.bytes.length := by omega
  unfold entrySize
  rw [safe_bind, safe_raw, value_bind, value_raw, ← record]
  by_cases hlink : u32At (record b o) 0 = 0
  · have hextension := h.parts.extension
    have hname := h.parts.name
    rw [if_neg (not_not_intro hlink)]
    have hnone (hlt : ¬o.nativeInfo < u64At (record b o) 0x40) : u64At (record b o) 0x40 = 0 :=
      hname.resolve_right fun hn => hlt hn.1
    have hn (hlt : o.nativeInfo < u64At (record b o) 0x40) :=
      hname.resolve_left fun hzero => absurd (hzero ▸ hlt) (UInt64.not_lt_zero)
    by_cases he : o.extendedInfo = 0
    · by_cases hlt : o.nativeInfo < u64At (record b o) 0x40
      · obtain ⟨-, hbehind, hend⟩ := hn hlt
        simp only [he, hlt, if_true, value_bind, value_pure, safe_bind, safe_pure, and_true]
        refine ⟨hrecord, by omega, le_max_left _ _, .inr ⟨hlt, hbehind, le_max_right _ _⟩,
          fun hne => absurd he hne⟩
      · simp only [he, hlt, if_true, if_false, value_bind, value_pure, safe_bind, safe_pure,
          and_true]
        exact ⟨hrecord, hthreads, le_rfl, .inl (hnone hlt), fun hne => absurd he hne⟩
    · obtain ⟨hfar, hto⟩ := hextension he
      by_cases hlt : o.nativeInfo < u64At (record b o) 0x40
      · obtain ⟨-, hbehind, hend⟩ := hn hlt
        simp only [he, hlt, if_true, if_false, value_bind, value_pure, safe_bind, safe_pure,
          and_true]
        refine ⟨⟨hrecord, h.safe_extension he⟩, by omega, by omega,
          .inr ⟨hlt, hbehind, le_max_right _ _⟩, fun _ => ⟨hfar, by omega⟩⟩
      · simp only [he, hlt, if_false, value_bind, value_pure, safe_bind, safe_pure, and_true]
        exact ⟨⟨hrecord, h.safe_extension he⟩, by omega, le_max_left _ _, .inl (hnone hlt),
          fun _ => ⟨hfar, le_max_right _ _⟩⟩
  · have hroom := h.link.resolve_left hlink
    rw [if_pos hlink, value_pure, hroom]
    exact ⟨⟨hrecord, safe_pure _⟩, le_rfl, h.parts⟩

end Parts

/-! ## what is read of a part -/

section Reading

variable {xs ys : Bytes} {p q : ℕ}

theorem getLengthSid_shares {n : ℕ} (h : Shares xs ys p q n) (hn : 2 ≤ n) :
    (getLengthSid ys q).Safe ∧ (getLengthSid ys q).value = (getLengthSid xs p).value := by
  have hone := h.part 1 1 hn
  simp only [getLengthSid, safe_bind, safe_raw, safe_pure, and_true, value_bind, value_raw,
    value_pure, hone.part_eq]
  exact hone.right

theorem readText_shares {n : ℕ} (h : Shares xs ys p q n)
    (hn : 2 * ((readText xs p).value.length + 1) ≤ n) :
    (readText ys q).Safe ∧ (readText ys q).value = (readText xs p).value := by
  have hleft := h.left
  have hright := h.right
  rw [readText, value_bind, value_pure] at hn
  have hvalue : (readText ys q).value = (readText xs p).value := by
    rw [readText, value_bind, value_pure, readText, value_bind, value_pure]
    refine takeWhile_of_take_eq (m := n / 2) _ ?_ ?_ (by omega)
    · rw [← units_take, ← units_take, h.part_eq]
    · rw [length_units, List.length_drop]
      omega
  refine ⟨?_, hvalue⟩
  have htext : (units (ys.drop q)).takeWhile (· ≠ 0) = (units (xs.drop p)).takeWhile (· ≠ 0) :=
    hvalue
  rw [readText, safe_bind, safe_raw, htext]
  exact ⟨by omega, safe_pure _⟩

variable {b b' : Block} {extensionSize : ℕ}

theorem extensionAt_shares
    (h : Shares b.bytes b'.bytes p q (extensionEnd b extensionSize p).value) :
    (extensionAt b' extensionSize q).Safe ∧
      (extensionAt b' extensionSize q).value = (extensionAt b extensionSize p).value := by
  obtain ⟨hsize, hsidEnd, -⟩ := @le_extensionEnd b extensionSize p _ rfl
  have hextension : Shares b.bytes b'.bytes p q extensionSize := h.part 0 extensionSize (by omega)
  have hlength (sid : ℕ) : 2 ≤ (getLengthSid b.bytes (p + sid)).value := by
    rw [getLengthSid, value_bind, value_pure]
    omega
  unfold extensionAt
  simp only [safe_bind, value_bind, safe_raw, value_raw, ← hextension.part_eq]
  by_cases hsid : (u32At ((b.bytes.drop p).take extensionSize) 0x34).toNat = 0
  · simp only [hsid, if_true, value_pure, safe_pure, and_true]
    exact hextension.right
  · have hpart := h.part _ _ (hsidEnd hsid)
    obtain ⟨hsafe, hvalue⟩ := getLengthSid_shares hpart (hlength _)
    simp only [hsid, if_false, safe_bind, value_bind, value_pure, safe_pure, and_true, safe_raw,
      value_raw, hvalue, hpart.part_eq]
    exact ⟨hextension.right, hsafe, hpart.right⟩

end Reading

/-! ## the copy -/

section Copy

variable {entry address : UInt64} {copy : Bytes}

/-- Nothing but the name's length and pointer is written over. -/
theorem relocate_eq (entry address : UInt64) (copy : Bytes) : ∃ k new, 0x38 ≤ k ∧
    k + new.length = 0x48 ∧ relocate entry address copy = patch copy k new := by
  unfold relocate
  by_cases hinside : entry ≤ u64At copy 0x40 ∧ (u64At copy 0x40).toNat < entry.toNat + copy.length
  · exact ⟨0x40, _, by decide, by rw [length_leBytes], if_pos hinside⟩
  · exact ⟨0x38, _, le_rfl, rfl, if_neg hinside⟩

theorem length_relocate (hcopy : 0x48 ≤ copy.length) :
    (relocate entry address copy).length = copy.length := by
  obtain ⟨k, new, -, hend, heq⟩ := relocate_eq entry address copy
  rw [heq, length_patch (by omega)]

theorem take_relocate (hcopy : 0x48 ≤ copy.length) :
    (relocate entry address copy).take 0x38 = copy.take 0x38 := by
  obtain ⟨k, new, hstart, hend, heq⟩ := relocate_eq entry address copy
  have hpart := @part_patch_of_le _ copy new k 0 0x38 (by omega) (by omega)
  rw [heq]
  exact hpart

theorem drop_relocate (hcopy : 0x48 ≤ copy.length) {i : ℕ} (hi : 0x48 ≤ i) :
    (relocate entry address copy).drop i = copy.drop i := by
  obtain ⟨k, new, -, hend, heq⟩ := relocate_eq entry address copy
  rw [heq, drop_patch_of_le (by omega) (by omega)]

theorem relocate_name (address : UInt64) (hcopy : 0x48 ≤ copy.length)
    (hinside : entry ≤ u64At copy 0x40 ∧ (u64At copy 0x40).toNat < entry.toNat + copy.length) :
    u64At (relocate entry address copy) 0x40 = moved entry address (u64At copy 0x40) ∧
      u16At (relocate entry address copy) 0x38 = u16At copy 0x38 := by
  have hfits : 0x40 + (leBytes 8 (moved entry address (u64At copy 0x40)).toNat).length
      ≤ copy.length := by
    rw [length_leBytes]
    omega
  have hpointer := part_patch hfits
  have hlength := @part_patch_of_le _ _ _ _ 0x38 2 hfits (by decide)
  rw [length_leBytes] at hpointer
  unfold relocate
  rw [if_pos hinside]
  constructor
  · rw [u64At, ← u64_take, hpointer, u64_leBytes]
  · rw [u16At, ← u16_take, hlength, u16_take, u16At]

theorem relocate_name_dropped (hcopy : 0x48 ≤ copy.length)
    (hinside : ¬(entry ≤ u64At copy 0x40 ∧ (u64At copy 0x40).toNat < entry.toNat + copy.length)) :
    u64At (relocate entry address copy) 0x40 = 0 := by
  have hfits : 0x38 + (List.replicate 16 (0 : UInt8)).length ≤ copy.length := hcopy
  have hpart := congrArg (List.drop 8) (part_patch hfits)
  rw [List.drop_take, List.drop_drop] at hpart
  have hzero : ((patch copy 0x38 (List.replicate 16 0)).drop 0x40).take 8 = List.replicate 8 0 :=
    hpart
  unfold relocate
  rw [if_neg hinside, u64At, ← u64_take, hzero]
  rfl

end Copy

section Copied

variable (b : Block) (extensionSize : ℕ) (o : ProcessInfo) (address : UInt64) (size : ℕ)

/-- The copy of an entry's first bytes. -/
def copied : Block where
  base := address
  bytes := relocate o.nativeInfo address ((b.bytes.drop (b.place o.nativeInfo)).take size)

/-- The object after `Detach`. -/
def detachedTo : ProcessInfo where
  nativeInfo := address
  extendedInfo := moved o.nativeInfo address o.extendedInfo
  packageFullName := moved o.nativeInfo address o.packageFullName
  threads := []
  detached := some (copied b o address size)

/-- An entry's first bytes have all of it, and there is room for them at the address. -/
structure Copying : Prop where
  nativeInfo : o.nativeInfo ≠ 0
  inside : b.place o.nativeInfo + size ≤ b.bytes.length
  bytes_lt : b.bytes.length < 2 ^ 64
  parts : PartsIn b extensionSize o size
  length : (u16At (record b o) 0x38).toNat ≤ (u16At (record b o) 0x3A).toNat
  address_ne : address ≠ 0
  top_lt : address.toNat + size < 2 ^ 64

variable {b extensionSize o address size}

theorem place_copied :
    (copied b o address size).place (detachedTo b o address size).nativeInfo = 0 := by
  rw [Block.place, copied, detachedTo, UInt64.sub_self, UInt64.toNat_zero]

theorem record_copied : record (copied b o address size) (detachedTo b o address size)
    = (copied b o address size).bytes.take processSize := by
  rw [record, place_copied, List.drop_zero]

namespace Copying

variable (h : Copying b extensionSize o address size)
include h

theorem processSize_le : processSize ≤ size := (threadsEnd_ge _).trans h.parts.threads

theorem name_le : 0x48 ≤ size := le_trans (by decide) h.processSize_le

theorem length_copy : ((b.bytes.drop (b.place o.nativeInfo)).take size).length = size :=
  length_part h.inside

theorem length_copied : (copied b o address size).bytes.length = size := by
  rw [copied, length_relocate (h.length_copy.symm ▸ h.name_le), h.length_copy]

/-- What is behind the name is in the copy. -/
theorem shares {i n : ℕ} (hi : 0x48 ≤ i) (hn : i + n ≤ size) :
    Shares b.bytes (copied b o address size).bytes (b.place o.nativeInfo + i) i n := by
  have hinside := h.inside
  refine ⟨by omega, by rwa [h.length_copied], ?_⟩
  rw [copied, drop_relocate (h.length_copy.symm ▸ h.name_le) hi, part_part i n hn]

/-- A pointer to what is behind the structure leads to the same in the copy. -/
theorem pointer {p : UInt64} {n : ℕ} (hp : p ≠ 0)
    (hbehind : processSize ≤ (p - o.nativeInfo).toNat) (hn : (p - o.nativeInfo).toNat + n ≤ size) :
    moved o.nativeInfo address p ≠ 0 ∧ Shares b.bytes (copied b o address size).bytes (b.place p)
      ((copied b o address size).place (moved o.nativeInfo address p)) n := by
  have hinside := h.inside
  have hlt := h.bytes_lt
  have htop := h.top_lt
  have hplace' : (copied b o address size).place (moved o.nativeInfo address p)
      = (p - o.nativeInfo).toNat := place_moved hp
  have hplace : b.place p = b.place o.nativeInfo + (p - o.nativeInfo).toNat :=
    place_eq size (by omega) (by omega)
  refine ⟨moved_ne_zero h.address_ne hp (by omega), ?_⟩
  rw [hplace', hplace]
  exact h.shares (le_trans (by decide) hbehind) hn

/-- The copy's structure has the same fields. -/
theorem fields :
    (record (copied b o address size) (detachedTo b o address size)).take 0x38
        = (record b o).take 0x38 ∧
      (record (copied b o address size) (detachedTo b o address size)).drop 0x48
        = (record b o).drop 0x48 := by
  have hsize := h.processSize_le
  have hprocess : processSize = 0x100 := rfl
  constructor
  · rw [record_copied, record, List.take_take, List.take_take, copied, hprocess,
      Nat.min_eq_left (by decide), take_relocate (h.length_copy.symm ▸ h.name_le), List.take_take,
      Nat.min_eq_left (by omega)]
  · have hshares := h.shares (i := 0x48) (n := processSize - 0x48) le_rfl (by omega)
    rw [record_copied, record, List.drop_take, List.drop_take, List.drop_drop, hshares.part_eq]

theorem record_eq :
    record b o = ((b.bytes.drop (b.place o.nativeInfo)).take size).take processSize := by
  rw [List.take_take, Nat.min_eq_left h.processSize_le, record]

theorem name_eq : u64At ((b.bytes.drop (b.place o.nativeInfo)).take size) 0x40
    = u64At (record b o) 0x40 := by
  rw [h.record_eq]
  exact (u64At_take (by decide)).symm

/-- A name inside goes along. -/
theorem name_moved (hname : o.nativeInfo ≤ u64At (record b o) 0x40 ∧
      (u64At (record b o) 0x40).toNat < o.nativeInfo.toNat + size) :
    u64At (record (copied b o address size) (detachedTo b o address size)) 0x40
        = moved o.nativeInfo address (u64At (record b o) 0x40) ∧
      u16At (record (copied b o address size) (detachedTo b o address size)) 0x38
        = u16At (record b o) 0x38 := by
  have hcopy := h.length_copy
  obtain ⟨hpointer, hlength⟩ := relocate_name address (hcopy.symm ▸ h.name_le)
    (by rw [h.name_eq, hcopy]; exact hname)
  rw [record_copied, u64At_take (by decide), u16At_take (by decide)]
  constructor
  · rw [copied, hpointer, h.name_eq]
  · rw [copied, hlength, h.record_eq]
    exact (u16At_take (by decide)).symm

/-- Another is dropped. -/
theorem name_dropped (hname : ¬(o.nativeInfo ≤ u64At (record b o) 0x40 ∧
      (u64At (record b o) 0x40).toNat < o.nativeInfo.toNat + size)) :
    u64At (record (copied b o address size) (detachedTo b o address size)) 0x40 = 0 := by
  have hcopy := h.length_copy
  rw [record_copied, u64At_take (by decide), copied]
  exact relocate_name_dropped (hcopy.symm ▸ h.name_le) (by rw [h.name_eq, hcopy]; exact hname)

/-- The copy's image name is the entry's. -/
theorem readName_eq :
    (readName (copied b o address size)
        (record (copied b o address size) (detachedTo b o address size))).Safe ∧
      (readName (copied b o address size)
          (record (copied b o address size) (detachedTo b o address size))).value
        = (readName b (record b o)).value := by
  have hlength := h.length
  by_cases hname : o.nativeInfo ≤ u64At (record b o) 0x40 ∧
      (u64At (record b o) 0x40).toNat < o.nativeInfo.toNat + size
  · have hnonzero : u64At (record b o) 0x40 ≠ 0 := fun hzero =>
      h.nativeInfo (UInt64.le_zero_iff.mp (hzero ▸ hname.1))
    obtain ⟨-, hbehind, hend⟩ := h.parts.name.resolve_left hnonzero
    obtain ⟨hpointer, hkept⟩ := h.name_moved hname
    obtain ⟨hmoved, hshares⟩ := h.pointer (n := 2 * ((u16At (record b o) 0x38).toNat / 2))
      hnonzero hbehind (by omega)
    unfold readName
    rw [hpointer, hkept, if_neg hmoved, if_neg hnonzero]
    simp only [safe_bind, safe_raw, safe_pure, and_true, value_bind, value_raw, value_pure,
      hshares.part_eq]
    exact hshares.right
  · have hdropped : readName (copied b o address size)
        (record (copied b o address size) (detachedTo b o address size)) = pure [] := by
      rw [readName, if_pos (h.name_dropped hname)]
    rw [hdropped]
    refine ⟨safe_pure _, ?_⟩
    rcases h.parts.name with hzero | ⟨hafter, -, hend⟩
    · rw [readName, if_pos hzero]
    -- it is behind the entry, and has no room there
    · have hle := UInt64.le_of_lt hafter
      have hsub := UInt64.toNat_sub_of_le _ _ hle
      have hlower := UInt64.le_iff_toNat_le.mp hle
      have hpast : ¬(u64At (record b o) 0x40).toNat < o.nativeInfo.toNat + size :=
        fun hlt => hname ⟨hle, hlt⟩
      have hempty : (u16At (record b o) 0x38).toNat = 0 := by omega
      have hnonzero : u64At (record b o) 0x40 ≠ 0 := fun hzero =>
        UInt64.not_lt_zero (hzero ▸ hafter)
      rw [readName, if_neg hnonzero, hempty]
      rfl

/-- The copy's extension is the entry's. -/
theorem readExtension_eq :
    (readExtension (copied b o address size) extensionSize (detachedTo b o address size)).Safe ∧
      (readExtension (copied b o address size) extensionSize (detachedTo b o address size)).value
        = (readExtension b extensionSize o).value := by
  unfold readExtension
  by_cases he : o.extendedInfo = 0
  · have he' : (detachedTo b o address size).extendedInfo = 0 := if_pos he
    rw [if_pos he, if_pos he']
    exact ⟨safe_pure _, rfl⟩
  · obtain ⟨hbehind, hend⟩ := h.parts.extension he
    obtain ⟨he', hshares⟩ := h.pointer he hbehind hend
    obtain ⟨hsafe, hvalue⟩ := extensionAt_shares hshares
    rw [if_neg he, detachedTo, if_neg he']
    exact ⟨(safe_bind _ _).mpr ⟨hsafe, safe_pure _⟩, congrArg some hvalue⟩

/-- The copy shows what the entry shows. -/
theorem shown_eq :
    (shown (copied b o address size) extensionSize (detachedTo b o address size)).Safe ∧
      (shown (copied b o address size) extensionSize (detachedTo b o address size)).value
        = (shown b extensionSize o).value := by
  have hsize := h.processSize_le
  have hprocess : processSize = 0x100 := rfl
  obtain ⟨htake, hdrop⟩ := h.fields
  obtain ⟨hnameSafe, hname⟩ := h.readName_eq
  obtain ⟨hextensionSafe, hextension⟩ := h.readExtension_eq
  have hcount : u32At (record (copied b o address size) (detachedTo b o address size)) 4
      = u32At (record b o) 4 := by
    rw [← u32At_take (show 4 + 4 ≤ 0x38 by decide), htake, u32At_take (by decide)]
  have hthreads := h.shares (i := processSize)
    (n := threadSize true * (u32At (record b o) 4).toNat) (by omega) h.parts.threads
  have hfirst := hthreads.right
  have hplace : (copied b o address size).place (detachedTo b o address size).nativeInfo = 0 :=
    place_copied
  have hrecord : ((copied b o address size).bytes.drop 0).take processSize
      = record (copied b o address size) (detachedTo b o address size) := by
    rw [record_copied, List.drop_zero]
  unfold shown
  simp only [safe_bind, value_bind, safe_raw, value_raw, safe_pure, value_pure, and_true, hplace,
    hrecord, Nat.zero_add, hcount]
  refine ⟨⟨by omega, hfirst, hnameSafe, hextensionSafe⟩, ?_⟩
  rw [htake, hdrop, hname, hextension, ← hthreads.part_eq]
  rfl

/-- The copy's package name is the one of the entry. -/
theorem shownPackage_eq (hown : OwnPackage b extensionSize o) :
    (shownPackage (copied b o address size) (detachedTo b o address size)).Safe ∧
      (shownPackage (copied b o address size) (detachedTo b o address size)).value
        = (shownPackage b o).value := by
  have hinside := h.inside
  have hlt := h.bytes_lt
  unfold shownPackage
  by_cases hp : o.packageFullName = 0
  · have hp' : (detachedTo b o address size).packageFullName = 0 := if_pos hp
    rw [if_pos hp, if_pos hp']
    exact ⟨safe_pure _, rfl⟩
  · obtain ⟨he, hoffset, hpackage⟩ := hown.resolve_left hp
    obtain ⟨hbehind, hto⟩ := h.parts.extension he
    obtain ⟨-, -, hpackageEnd⟩ := @le_extensionEnd b extensionSize (b.place o.extendedInfo) _ rfl
    have hend := hpackageEnd fun hzero => hoffset (UInt32.toNat_inj.mp hzero)
    rw [← packageOffset] at hend
    -- the pointer is further on than the extension's, and does not wrap
    have hsub : o.packageFullName - o.nativeInfo
        = (o.extendedInfo - o.nativeInfo) + (packageOffset b extensionSize o).toUInt64 := by
      rw [hpackage, UInt64.sub_eq_add_neg, UInt64.sub_eq_add_neg, UInt64.add_assoc,
        UInt64.add_comm _ (-o.nativeInfo), ← UInt64.add_assoc]
    have hfurther : (o.packageFullName - o.nativeInfo).toNat
        = (o.extendedInfo - o.nativeInfo).toNat + (packageOffset b extensionSize o).toNat := by
      rw [hsub, UInt64.toNat_add, UInt32.toNat_toUInt64, Nat.mod_eq_of_lt (by omega)]
    have hextension : b.place o.extendedInfo
        = b.place o.nativeInfo + (o.extendedInfo - o.nativeInfo).toNat :=
      place_eq size (by omega) (by omega)
    have hplace : b.place o.packageFullName
        = b.place o.nativeInfo + (o.packageFullName - o.nativeInfo).toNat :=
      place_eq size (by omega) (by omega)
    have htext : b.place o.extendedInfo + (packageOffset b extensionSize o).toNat
        = b.place o.packageFullName := by omega
    rw [htext] at hend
    obtain ⟨hp', hshares⟩ := h.pointer (n := 2 * ((readText b.bytes
      (b.place o.packageFullName)).value.length + 1)) hp (by omega) (by omega)
    obtain ⟨hsafe, hvalue⟩ := readText_shares hshares le_rfl
    rw [if_neg hp, detachedTo, if_neg hp']
    exact ⟨(safe_bind _ _).mpr ⟨hsafe, safe_pure _⟩, congrArg some hvalue⟩

end Copying

end Copied

/-! ## `Detach` -/

section Detach

variable {b : Block} {extensionSize room : ℕ} {o : ProcessInfo} {address : UInt64}

theorem detach_eq (hattached : o.detached = none) (hnative : o.nativeInfo ≠ 0) :
    (detach b extensionSize address o).value
        = detachedTo b o address (entrySize b extensionSize o).value ∧
      ((detach b extensionSize address o).Safe ↔ (entrySize b extensionSize o).Safe ∧
        b.place o.nativeInfo + (entrySize b extensionSize o).value ≤ b.bytes.length) := by
  unfold detach
  rw [hattached, if_neg (by simpa using hnative)]
  exact ⟨rfl, by simp⟩

/-- A detached process stays as it is. -/
theorem detach_detached (h : o.detached.isSome = true) :
    detach b extensionSize address o = pure o := by
  unfold detach
  rw [h, Bool.true_or, if_pos rfl]

/-- The size that is copied has the entry. -/
theorem EntryAt.copying (h : EntryAt b extensionSize o room) (haddress : address ≠ 0)
    (htop : address.toNat + room < 2 ^ 64) :
    Copying b extensionSize o address (entrySize b extensionSize o).value := by
  obtain ⟨-, hle, hparts⟩ := entrySize_spec h
  exact ⟨h.nativeInfo, (Nat.add_le_add_left hle _).trans h.inside, h.bytes_lt, hparts, h.length,
    haddress, (Nat.add_le_add_left hle _).trans_lt htop⟩

/-- **A terminated process is shown from its copy as from its entry**, and no read of `Detach` or
of the copy is outside its block. The package name is kept where it is the entry's; a pointer into
another snapshot leads out of the copy. -/
theorem detach_shown (h : EntryAt b extensionSize o room) (hattached : o.detached = none)
    (haddress : address ≠ 0) (htop : address.toNat + room < 2 ^ 64) :
    (detach b extensionSize address o).Safe ∧
    let d := (detach b extensionSize address o).value
    ∃ copy, d.detached = some copy ∧ d.threads = [] ∧
      (shown copy extensionSize d).Safe ∧
      (shown copy extensionSize d).value = (shown b extensionSize o).value ∧
      (OwnPackage b extensionSize o →
        (shownPackage copy d).Safe ∧ (shownPackage copy d).value = (shownPackage b o).value) ∧
      (o.packageFullName ≠ 0 → room ≤ (o.packageFullName - o.nativeInfo).toNat →
        copy.bytes.length ≤ copy.place d.packageFullName) ∧
      ∀ b' address', detach b' extensionSize address' d = pure d := by
  obtain ⟨hsafe, hle, -⟩ := entrySize_spec h
  have hcopying := h.copying haddress htop
  obtain ⟨hvalue, hsafeIff⟩ := @detach_eq b extensionSize o address hattached h.nativeInfo
  refine ⟨hsafeIff.mpr ⟨hsafe, hcopying.inside⟩, ?_⟩
  rw [hvalue]
  obtain ⟨hshownSafe, hshown⟩ := hcopying.shown_eq
  refine ⟨_, rfl, rfl, hshownSafe, hshown, hcopying.shownPackage_eq, fun hp hout => ?_,
    fun b' address' => detach_detached rfl⟩
  have hplace : (copied b o address (entrySize b extensionSize o).value).place
      (moved o.nativeInfo address o.packageFullName) = (o.packageFullName - o.nativeInfo).toNat :=
    place_moved hp
  rw [hcopying.length_copied]
  exact (hle.trans hout).trans hplace.ge

end Detach

/-- The last entry of a snapshot: a thread, the extension, a SID, a package name, an image name. -/
def lastEntry : Bytes :=
  leBytes 4 0 ++ leBytes 4 1 ++ List.replicate 0x30 0 ++ leBytes 2 2 ++ leBytes 2 4 ++ leBytes 4 0
    ++ leBytes 8 0x11E4 ++ List.replicate 0xB8 0
    ++ List.replicate 0x88 7
    ++ List.replicate 0x34 0 ++ leBytes 4 0x3C ++ leBytes 4 0x48
    ++ [1, 1, 0, 0, 0, 0, 0, 5, 18, 0, 0, 0] ++ [65, 0, 0, 0] ++ [66, 0, 0, 0]

/-- A snapshot that ends with it. -/
def lastBlock : Block := ⟨0x1000, List.replicate 0x10 9 ++ lastEntry⟩

def lastProcess : ProcessInfo where
  nativeInfo := 0x1010
  extendedInfo := 0x1198
  packageFullName := 0x11E0
  threads := [1]

theorem entryAt_lastProcess : EntryAt lastBlock 0x3C lastProcess 0x1D8 where
  nativeInfo := by decide +kernel
  inside := by decide +kernel
  bytes_lt := by decide +kernel
  link := by decide +kernel
  parts := ⟨by decide +kernel, by decide +kernel, by decide +kernel⟩
  length := by decide +kernel

/-- It keeps its package name. -/
theorem detach_shown_lastProcess :
    let d := (detach lastBlock 0x3C 0x9000 lastProcess).value
    ∃ copy, d.detached = some copy ∧
      (shown copy 0x3C d).value = (shown lastBlock 0x3C lastProcess).value ∧
      (shownPackage copy d).value = some [65] := by
  obtain ⟨-, copy, hcopy, -, -, hshown, hpackage, -⟩ :=
    @detach_shown lastBlock 0x3C 0x1D8 lastProcess 0x9000 entryAt_lastProcess rfl
      (by decide +kernel) (by decide +kernel)
  refine ⟨copy, hcopy, hshown, ?_⟩
  rw [(hpackage (.inr (by decide +kernel))).2]
  decide +kernel

end WinSys.Process.Detach
