import Mathlib.Data.List.Nodup
import WinSys.CLibrary
import WinSys.Firmware.LoadOption

/-!
# The boot configuration

`Firmware::GetBootConfiguration` makes a list of boot entries from the UEFI variables: each global
`Boot####` is one, and `BootOrder` has the numbers of those that are tried, in order.

* `safe_getBootConfiguration`: no access is outside a value
* `getBootConfiguration_entries`: the entries are those of the variables, the ordered ones first
-/

namespace WinSys.Firmware

open Infra Reads CLibrary

/-! ## variables -/

abbrev Guid := Vector UInt8 16

def efiGlobalVariable : Guid := #v[0x61, 0xDF, 0xE4, 0x8B, 0xCA, 0x93, 0xD2, 0x11,
  0xAA, 0x0D, 0x00, 0xE0, 0x98, 0x03, 0x2B, 0x8C]

structure UefiVariable where
  name : WString
  vendor : Guid
  attributes : UInt32 := 0
  value : Bytes
deriving DecidableEq

namespace UefiVariable

variable [CLibrary] (v : UefiVariable)

/-- The firmware's own variable of a name. -/
def IsGlobal (name : WString) : Prop := v.vendor = efiGlobalVariable ∧ v.name = name

instance (name : WString) : Decidable (v.IsGlobal name) := inferInstanceAs (Decidable (_ ∧ _))

/-- `Boot####` with four hexadecimal digits. -/
def IsBoot : Prop :=
  v.vendor = efiGlobalVariable ∧ v.name.length = 8 ∧ v.name.take 4 = wide "Boot" ∧
    (v.name.drop 4).all iswxdigit

instance : DecidablePred IsBoot := fun _ => inferInstanceAs (Decidable (_ ∧ _))

def number : UInt16 := (wcstoul (v.name.drop 4) 16).toUInt16

end UefiVariable

variable (vars : List UefiVariable)

def findGlobal (name : WString) : Option UefiVariable :=
  vars.find? fun v => v.IsGlobal name

def getUInt16 (name : WString) : Reads (Option UInt16) :=
  match findGlobal vars name with
  | none => return none
  | some v =>
    if v.value.length < 2 then return none else return some (u16 (← raw v.value 0 2))

def getFlag (name : WString) : Reads (Option Bool) :=
  match findGlobal vars name with
  | none => return none
  | some v =>
    if v.value.length = 0 then return none else return some (u8At (← raw v.value 0 1) 0 ≠ 0)

/-! ## entries -/

structure BootEntry where
  number : UInt16
  description : WString
  attributes : UInt32
  filePath : WString
  /-- the place in `BootOrder`; -1 if it isn't there -/
  order : ℤ
deriving DecidableEq, Repr

structure BootConfiguration where
  entries : List BootEntry
  current : Option UInt16
  next : Option UInt16
  timeout : Option UInt16
  secureBoot : Option Bool
  setupMode : Option Bool

/-- The numbers in a value from `i` on. -/
def readNumbers (value : Bytes) (i : ℕ) : Reads (List UInt16) :=
  if i + 1 < value.length then do
    let number := u16 (← raw value i 2)
    return number :: (← readNumbers value (i + 2))
  else return []
termination_by value.length - i

def readOrder : Reads (List UInt16) :=
  match findGlobal vars (wide "BootOrder") with
  | none => return []
  | some v => readNumbers v.value 0

/-- `(int)(it - order.begin())` if the number is there -/
def orderOf (order : List UInt16) (number : UInt16) : ℤ :=
  if number ∈ order then Int.bmod (order.idxOf number) (2 ^ 32) else -1

/-- The entry of a variable, if it is one and has a load option. -/
def readEntry [CLibrary] (order : List UInt16) (v : UefiVariable) : Reads (Option BootEntry) :=
  if v.IsBoot then do
    let parsed ← parseLoadOption v.value
    return parsed.map fun p => { p with number := v.number, order := orderOf order v.number }
  else return none

def readEntries [CLibrary] (order : List UInt16) : List UefiVariable → Reads (List BootEntry)
  | [] => return []
  | v :: vars => do
    let entry ← readEntry order v
    return entry.toList ++ (← readEntries order vars)

def intMax : ℤ := 2 ^ 31 - 1

def BootEntry.key (e : BootEntry) : ℤ × UInt16 :=
  (if e.order < 0 then intMax else e.order, e.number)

/-- `key(a) < key(b)` -/
def keyLt (a b : BootEntry) : Prop :=
  a.key.1 < b.key.1 ∨ a.key.1 = b.key.1 ∧ a.key.2 < b.key.2

instance : DecidableRel keyLt := fun _ _ => inferInstanceAs (Decidable (_ ∨ _))

/-- The ordered ones first. -/
def sortEntries (entries : List BootEntry) : List BootEntry :=
  entries.mergeSort fun a b => ¬keyLt b a

def getBootConfiguration [CLibrary] : Reads BootConfiguration := do
  let current ← getUInt16 vars (wide "BootCurrent")
  let next ← getUInt16 vars (wide "BootNext")
  let timeout ← getUInt16 vars (wide "Timeout")
  let secureBoot ← getFlag vars (wide "SecureBoot")
  let setupMode ← getFlag vars (wide "SetupMode")
  let order ← readOrder vars
  let entries ← readEntries order vars
  return { entries := sortEntries entries, current, next, timeout, secureBoot, setupMode }

/-! ## no access is outside -/

theorem safe_getUInt16 (name : WString) : (getUInt16 vars name).Safe := by
  unfold getUInt16
  split
  · exact safe_pure _
  · refine Safe.ite (fun _ => safe_pure _) fun hlength => ?_
    simp only [safe_bind, safe_raw, safe_pure, and_true]
    omega

theorem safe_getFlag (name : WString) : (getFlag vars name).Safe := by
  unfold getFlag
  split
  · exact safe_pure _
  · refine Safe.ite (fun _ => safe_pure _) fun hlength => ?_
    simp only [safe_bind, safe_raw, safe_pure, and_true]
    omega

theorem safe_readNumbers (value : Bytes) (i : ℕ) : (readNumbers value i).Safe := by
  induction h : value.length - i using Nat.strong_induction_on generalizing i with
  | _ n ih =>
    rw [readNumbers]
    refine Safe.ite (fun hi => ?_) fun _ => safe_pure _
    simp only [safe_bind, safe_raw, safe_pure, and_true]
    exact ⟨by omega, ih _ (by omega) (i + 2) rfl⟩

theorem safe_readOrder : (readOrder vars).Safe := by
  unfold readOrder
  split
  · exact safe_pure _
  · exact safe_readNumbers _ 0

theorem safe_readEntries [CLibrary] (order : List UInt16) : (readEntries order vars).Safe := by
  induction vars with
  | nil => exact safe_pure _
  | cons v vars ih =>
    have hentry : (readEntry order v).Safe := by
      refine Safe.ite (fun _ => ?_) fun _ => safe_pure _
      simp only [safe_bind, safe_pure, and_true]
      exact safe_parseLoadOption v.value
    simp only [readEntries, safe_bind, safe_pure, and_true]
    exact ⟨hentry, ih⟩

/-- **No access is outside a value**, whatever the values are. -/
theorem safe_getBootConfiguration [CLibrary] : (getBootConfiguration vars).Safe := by
  simp only [getBootConfiguration, safe_bind, safe_pure, and_true]
  exact ⟨safe_getUInt16 _ _, safe_getUInt16 _ _, safe_getUInt16 _ _, safe_getFlag _ _,
    safe_getFlag _ _, safe_readOrder _, safe_readEntries _ _⟩

/-! ## the entries -/

section Values

variable {vars}

theorem value_readNumbers (value : Bytes) (i : ℕ) :
    (readNumbers value i).value = units (value.drop i) := by
  induction h : value.length - i using Nat.strong_induction_on generalizing i with
  | _ n ih =>
    rw [readNumbers]
    split
    · next hi =>
      have hdrop : value.drop i = value[i] :: value[i + 1] :: value.drop (i + 2) := by
        rw [List.drop_eq_getElem_cons (by omega), List.drop_eq_getElem_cons (by omega)]
      rw [value_bind, value_raw, value_bind, value_pure, ih _ (by omega) (i + 2) rfl, hdrop, units]
      rfl
    · next hi =>
      rw [units_of_length_lt (by rw [List.length_drop]; omega)]
      rfl

/-- The numbers in the variables of the name `BootOrder`. -/
def bootOrder (vars : List UefiVariable) : List UInt16 :=
  (vars.filter fun v => v.IsGlobal (wide "BootOrder")).flatMap fun v => units v.value

/-- There is at most one variable of a name. -/
theorem filter_global_eq (hdistinct : (vars.map fun v => (v.vendor, v.name)).Nodup)
    (name : WString) :
    (vars.filter fun v => v.IsGlobal name) = (findGlobal vars name).toList := by
  induction vars with
  | nil => rfl
  | cons v vars ih =>
    rw [List.map_cons, List.nodup_cons] at hdistinct
    rw [findGlobal, List.find?_cons, List.filter_cons]
    by_cases hv : v.IsGlobal name
    · have hnone : (vars.filter fun v => v.IsGlobal name) = [] := by
        refine List.filter_eq_nil_iff.mpr fun w hw hname => hdistinct.1 ?_
        obtain ⟨hvendor, hname⟩ := of_decide_eq_true hname
        exact List.mem_map.mpr ⟨w, hw, by rw [hvendor, hname, hv.1, hv.2]⟩
      simp [hv, hnone]
    · simpa [hv, findGlobal] using ih hdistinct.2

theorem value_readOrder (hdistinct : (vars.map fun v => (v.vendor, v.name)).Nodup) :
    (readOrder vars).value = bootOrder vars := by
  rw [bootOrder, filter_global_eq hdistinct, readOrder]
  cases findGlobal vars (wide "BootOrder") with
  | none => rfl
  | some v => simp [value_readNumbers]

/-- An entry of a variable with a load option. -/
def entryOf [CLibrary] (order : List UInt16) (v : UefiVariable) (o : LoadOption) : BootEntry where
  number := v.number
  description := o.description
  attributes := o.attributes
  filePath := o.nodes.flatMap Node.text
  order := if v.number ∈ order then order.idxOf v.number else -1

theorem orderOf_eq {order : List UInt16} (hlength : order.length < 2 ^ 31) (number : UInt16) :
    orderOf order number = if number ∈ order then (order.idxOf number : ℤ) else -1 := by
  unfold orderOf
  split
  · next hmem =>
    have hlt := List.idxOf_lt_length_of_mem hmem
    exact Int.bmod_eq_of_le (by omega) (by omega)
  · rfl

theorem value_readEntries [CLibrary] {order : List UInt16} (hlength : order.length < 2 ^ 31)
    {option : UefiVariable → LoadOption}
    (hoption : ∀ v ∈ vars, v.IsBoot → v.value = (option v).encode) :
    (readEntries order vars).value
      = (vars.filter (decide ·.IsBoot)).map fun v => entryOf order v (option v) := by
  induction vars with
  | nil => rfl
  | cons v vars ih =>
    have hrest := ih fun w hw => hoption w (List.mem_cons_of_mem v hw)
    rw [readEntries, value_bind, value_bind, hrest, value_pure, readEntry]
    by_cases hv : v.IsBoot
    · have hvalue := hoption v List.mem_cons_self hv
      rw [if_pos hv, value_bind, value_pure, hvalue, parseLoadOption_encode,
        List.filter_cons_of_pos (by simpa using hv), List.map_cons, entryOf,
        ← orderOf_eq hlength]
      rfl
    · rw [if_neg hv, List.filter_cons_of_neg (by simpa using hv)]
      rfl

theorem length_bootOrder (hdistinct : (vars.map fun v => (v.vendor, v.name)).Nodup)
    (hsize : ∀ v ∈ vars, v.value.length < 2 ^ 32) : (bootOrder vars).length < 2 ^ 31 := by
  rw [bootOrder, filter_global_eq hdistinct]
  cases h : findGlobal vars (wide "BootOrder") with
  | none => simp
  | some v =>
    have hlt := hsize v (List.mem_of_find?_eq_some h)
    simp only [Option.toList_some, List.flatMap_singleton, length_units]
    omega

/-! ## their order -/

/-- The ordered ones first, in that order, and then the others by number. -/
def Before (a b : BootEntry) : Prop :=
  0 ≤ a.order ∧ (b.order < 0 ∨ a.order < b.order) ∨
    a.order < 0 ∧ b.order < 0 ∧ a.number < b.number

theorem pairwise_sortEntries (entries : List BootEntry) :
    (sortEntries entries).Pairwise fun a b => ¬keyLt b a := by
  refine (List.pairwise_mergeSort ?_ ?_ entries).imp of_decide_eq_true
  · intro a b c hab hbc
    simp only [decide_eq_true_eq, keyLt, UInt16.lt_iff_toNat_lt] at hab hbc ⊢
    omega
  · intro a b
    simp only [Bool.or_eq_true, decide_eq_true_eq, keyLt, UInt16.lt_iff_toNat_lt]
    omega

variable {order : List UInt16}

/-- Keys in order are entries in order, if these aren't the same. -/
theorem before_of_key {a b : BootEntry} (hlength : order.length < 2 ^ 31)
    (ha : a.order = if a.number ∈ order then (order.idxOf a.number : ℤ) else -1)
    (hb : b.order = if b.number ∈ order then (order.idxOf b.number : ℤ) else -1)
    (hne : a.number ≠ b.number) (hkey : ¬keyLt b a) : Before a b := by
  simp only [keyLt, BootEntry.key, intMax, UInt16.lt_iff_toNat_lt] at hkey
  simp only [Before, UInt16.lt_iff_toNat_lt]
  have hnumber : a.number.toNat ≠ b.number.toNat := fun h => hne (UInt16.toNat_inj.mp h)
  by_cases hao : a.number ∈ order <;> by_cases hbo : b.number ∈ order
  · have hother : order.idxOf a.number ≠ order.idxOf b.number := fun h =>
      hne ((List.idxOf_inj hao).mp h)
    rw [if_pos hao] at ha
    rw [if_pos hbo] at hb
    omega
  · rw [if_pos hao] at ha
    rw [if_neg hbo] at hb
    omega
  · -- the place of a number is below that of the unordered ones
    have hlt := List.idxOf_lt_length_of_mem hbo
    rw [if_neg hao] at ha
    rw [if_pos hbo] at hb
    omega
  · rw [if_neg hao] at ha
    rw [if_neg hbo] at hb
    omega

theorem pairwise_before {order : List UInt16} (hlength : order.length < 2 ^ 31)
    {entries : List BootEntry}
    (hplace : ∀ e ∈ entries,
      e.order = if e.number ∈ order then (order.idxOf e.number : ℤ) else -1)
    (hnumbers : (entries.map BootEntry.number).Nodup) :
    (sortEntries entries).Pairwise Before := by
  have hperm : (sortEntries entries).Perm entries := List.mergeSort_perm _ _
  have hne : (sortEntries entries).Pairwise fun a b => a.number ≠ b.number :=
    List.pairwise_map.mp ((hperm.map _).nodup_iff.mpr hnumbers)
  refine ((pairwise_sortEntries entries).and hne).imp_of_mem fun ha hb h => ?_
  exact before_of_key hlength (hplace _ (hperm.mem_iff.mp ha)) (hplace _ (hperm.mem_iff.mp hb))
    h.2 h.1

end Values

/-- **The boot entries are those of the variables**, one each, the ordered ones first, and no value
takes an access outside it. The load options are what the values of the `Boot####` variables encode;
a value's length is a `ULONG`. -/
theorem getBootConfiguration_entries [CLibrary] (vars : List UefiVariable)
    (option : UefiVariable → LoadOption)
    (hdistinct : (vars.map fun v => (v.vendor, v.name)).Nodup)
    (hsize : ∀ v ∈ vars, v.value.length < 2 ^ 32)
    (hnumbers : ((vars.filter (decide ·.IsBoot)).map UefiVariable.number).Nodup)
    (hoption : ∀ v ∈ vars, v.IsBoot → v.value = (option v).encode) :
    (getBootConfiguration vars).value.entries.Perm
        ((vars.filter (decide ·.IsBoot)).map fun v => entryOf (bootOrder vars) v (option v)) ∧
      (getBootConfiguration vars).value.entries.Pairwise Before ∧
      ∀ any, (getBootConfiguration any).Safe := by
  have hlength := length_bootOrder hdistinct hsize
  have hentries : (getBootConfiguration vars).value.entries = sortEntries
      ((vars.filter (decide ·.IsBoot)).map fun v => entryOf (bootOrder vars) v (option v)) := by
    simp only [getBootConfiguration, value_bind, value_pure, value_readOrder hdistinct,
      value_readEntries hlength hoption]
  rw [hentries]
  refine ⟨List.mergeSort_perm _ _, pairwise_before hlength ?_ ?_,
    fun any => safe_getBootConfiguration any⟩
  · intro e he
    obtain ⟨v, -, rfl⟩ := List.mem_map.mp he
    rfl
  · rw [List.map_map]
    exact hnumbers

/-! ### two entries, one of them ordered -/

theorem loaderNode_short : 4 + (zString (wide "\\boot.efi")).length < 2 ^ 16 := by decide

theorem loaderNode_type : (4 : UInt8) ≠ 0x7F := by decide

def loaderNode : Node :=
  ⟨4, 4, zString (wide "\\boot.efi"), loaderNode_type, loaderNode_short⟩

theorem windows_nul : 0 ∉ wide "Windows" := by decide

theorem windows_covers :
    ([loaderNode].flatMap Node.encode ++ endNode 0xFF).length ≤ (28 : UInt16).toNat := by decide

def windowsOption : LoadOption :=
  ⟨1, wide "Windows", [loaderNode], 0xFF, 28, [1, 2, 3], windows_nul, windows_covers⟩

theorem setup_nul : 0 ∉ wide "Setup" := by decide

theorem setup_covers : ([].flatMap Node.encode ++ endNode 0xFF).length ≤ (4 : UInt16).toNat := by
  decide

def setupOption : LoadOption := ⟨9, wide "Setup", [], 0xFF, 4, [], setup_nul, setup_covers⟩

def twoOptions : List UefiVariable := [
  { name := wide "Boot0001", vendor := efiGlobalVariable, value := setupOption.encode },
  { name := wide "Boot00fA", vendor := efiGlobalVariable, value := windowsOption.encode },
  { name := wide "BootOrder", vendor := efiGlobalVariable, value := [7, 0, 0xFA, 0, 0xFA, 0, 1] }]

theorem getBootConfiguration_twoOptions :
    (@getBootConfiguration twoOptions unicode).value.entries.Perm
        [⟨1, wide "Setup", 9, [], -1⟩, ⟨0xFA, wide "Windows", 1, wide "\\boot.efi", 1⟩] ∧
      (@getBootConfiguration twoOptions unicode).value.entries.Pairwise Before := by
  have h := @getBootConfiguration_entries unicode twoOptions
    (fun v => if @UefiVariable.number unicode v = 1 then setupOption else windowsOption)
    (by decide) (by decide) (by decide) (by decide)
  exact ⟨h.1, h.2.1⟩

end WinSys.Firmware
