import WinSys.Infra.Payload
import WinSys.Infra.Reads

/-!
# UEFI load options

The value of a `Boot####` variable is an `EFI_LOAD_OPTION`: attributes, the length of its device
path, a description with its terminator and the nodes of the path. `parseLoadOption` goes over one
with every access kept.

* `LoadOption`, `LoadOption.encode`: a load option as the firmware has it
* `safe_parseLoadOption`: no access is outside the value, whatever it is
* `parseLoadOption_encode`: a load option reads back
-/

namespace WinSys.Firmware

open Infra Reads

/-! ## parsing -/

/-- The characters from `offset` on, and what is behind their terminator. -/
def readDescription (data : Bytes) (offset : ℕ) : Reads (WString × ℕ) :=
  if offset + 1 < data.length then do
    let c := u16 (← raw data offset 2)
    if c = 0 then return ([], offset + 2)
    else
      let (description, offset) ← readDescription data (offset + 2)
      return (c :: description, offset)
  else return ([], offset)
termination_by data.length - offset

/-- The texts of the media file path nodes from `offset` on. -/
def readNodes (data : Bytes) (stop offset : ℕ) : Reads WString :=
  if offset + 4 ≤ stop then do
    let type := u8At (← raw data offset 1) 0
    let subType := u8At (← raw data (offset + 1) 1) 0
    let length := (u16 (← raw data (offset + 2) 2)).toNat
    -- the end node
    if _h : length < 4 ∨ offset + length > stop ∨ type = 0x7F then return []
    else if type = 4 ∧ subType = 4 then
      let path := units (← raw data (offset + 4) ((length - 4) / 2 * 2))
      return path.takeWhile (· ≠ 0) ++ (← readNodes data stop (offset + length))
    else readNodes data stop (offset + length)
  else return []
termination_by stop - offset

/-- What a load option says. -/
structure Parsed where
  attributes : UInt32
  description : WString
  filePath : WString
deriving DecidableEq, Repr

def parseLoadOption (data : Bytes) : Reads (Option Parsed) :=
  if data.length < 6 then return none
  else do
    let attributes := u32 (← raw data 0 4)
    let pathLength := (u16 (← raw data 4 2)).toNat
    let (description, offset) ← readDescription data 6
    let filePath ← readNodes data (min data.length (offset + pathLength)) offset
    return some { attributes, description, filePath }

/-! ## no access is outside -/

theorem safe_readDescription (data : Bytes) (offset : ℕ) : (readDescription data offset).Safe := by
  induction h : data.length - offset using Nat.strong_induction_on generalizing offset with
  | _ n ih =>
    rw [readDescription]
    refine Safe.ite (fun hoffset => ?_) fun _ => safe_pure _
    rw [safe_bind, safe_raw]
    refine ⟨by omega, Safe.ite (fun _ => safe_pure _) fun _ => ?_⟩
    rw [safe_bind]
    exact ⟨ih _ (by omega) (offset + 2) rfl, safe_pure _⟩

theorem safe_readNodes {data : Bytes} {stop : ℕ} (hstop : stop ≤ data.length) (offset : ℕ) :
    (readNodes data stop offset).Safe := by
  induction h : stop - offset using Nat.strong_induction_on generalizing offset with
  | _ n ih =>
    rw [readNodes]
    refine Safe.ite (fun hoffset => ?_) fun _ => safe_pure _
    simp only [safe_bind, safe_raw, value_raw]
    refine ⟨by omega, by omega, by omega, Safe.dite (fun _ => safe_pure _) fun hlength => ?_⟩
    have hrest := ih _ (by omega) (offset + (u16 ((data.drop (offset + 2)).take 2)).toNat) rfl
    refine Safe.ite (fun _ => ?_) fun _ => hrest
    simp only [safe_bind, safe_raw, safe_pure, and_true]
    exact ⟨by omega, hrest⟩

/-- **No access is outside the value**, whatever it is. -/
theorem safe_parseLoadOption (data : Bytes) : (parseLoadOption data).Safe := by
  unfold parseLoadOption
  refine Safe.ite (fun _ => safe_pure _) fun hlength => ?_
  simp only [safe_bind, safe_raw, safe_pure, and_true]
  exact ⟨by omega, by omega, safe_readDescription data 6, safe_readNodes (min_le_left _ _) _⟩

/-! ## load options -/

/-- A node of a device path before its end. -/
structure Node where
  type : UInt8
  subType : UInt8
  data : Bytes
  type_ne : type ≠ 0x7F
  short : 4 + data.length < 2 ^ 16

namespace Node

def encode (n : Node) : Bytes :=
  [n.type, n.subType] ++ leBytes 2 (4 + n.data.length) ++ n.data

/-- The text of a media file path node, which is up to its terminator. -/
def text (n : Node) : WString :=
  if n.type = 4 ∧ n.subType = 4 then (units n.data).takeWhile (· ≠ 0) else []

end Node

/-- The end node of a device path. -/
def endNode (subType : UInt8) : Bytes := [0x7F, subType] ++ leBytes 2 4

/-- A load option. -/
structure LoadOption where
  attributes : UInt32
  description : WString
  nodes : List Node
  endSubType : UInt8
  /-- `FilePathListLength` -/
  pathLength : UInt16
  optional : Bytes
  description_nul : 0 ∉ description
  covers : (nodes.flatMap Node.encode ++ endNode endSubType).length ≤ pathLength.toNat

namespace LoadOption

variable (o : LoadOption)

/-- The device path. -/
def path : Bytes := o.nodes.flatMap Node.encode ++ endNode o.endSubType

def encode : Bytes :=
  leBytes 4 o.attributes.toNat ++ leBytes 2 o.pathLength.toNat ++ zString o.description ++
    o.path ++ o.optional

/-- What the load option says. -/
def parsed : Parsed where
  attributes := o.attributes
  description := o.description
  filePath := o.nodes.flatMap Node.text

end LoadOption

/-! ## reading back -/

section Reading

variable {data rest : Bytes} {offset stop : ℕ}

theorem value_readDescription {description : WString} (hnul : 0 ∉ description)
    (h : data.drop offset = zString description ++ rest) :
    (readDescription data offset).value
      = (description, offset + (zString description).length) := by
  induction description generalizing offset with
  | nil =>
    have hlength := congrArg List.length h
    rw [List.length_drop, List.length_append, zString, length_wideBytes] at hlength
    have hread : u16 ((data.drop offset).take 2) = 0 := by
      rw [h]
      rfl
    rw [readDescription, if_pos (by simp at hlength; omega), value_bind, value_raw, hread,
      if_pos rfl]
    rfl
  | cons c description ih =>
    have hchar : zString (c :: description) ++ rest
        = leBytes 2 c.toNat ++ (zString description ++ rest) := by
      rw [zString, zString, wideBytes, List.cons_append, List.flatMap_cons, List.append_assoc]
      rfl
    rw [hchar] at h
    have hlength := congrArg List.length h
    rw [List.length_drop, List.length_append, length_leBytes] at hlength
    have hread : u16 ((data.drop offset).take 2) = c := by
      rw [h, take_leBytes_append, u16_leBytes]
    have hc : c ≠ 0 := fun hc => hnul (hc ▸ List.mem_cons_self)
    have hnext : data.drop (offset + 2) = zString description ++ rest := by
      rw [← List.drop_drop, h]
      exact List.drop_left' (length_leBytes _ _)
    have hrest := ih (fun hm => hnul (List.mem_cons_of_mem c hm)) hnext
    rw [readDescription, if_pos (by omega), value_bind, value_raw, hread, if_neg hc]
    simp only [value_bind, hrest, value_pure, Prod.mk.injEq, true_and]
    rw [zString, zString, length_wideBytes, length_wideBytes, List.cons_append, List.length_cons]
    omega

/-- The parts of a node's head. -/
theorem head_of_drop {type subType : UInt8} {length : ℕ} (hlength : length < 2 ^ 16)
    (h : data.drop offset = [type, subType] ++ leBytes 2 length ++ rest) :
    u8At ((data.drop offset).take 1) 0 = type ∧
      u8At ((data.drop (offset + 1)).take 1) 0 = subType ∧
      (u16 ((data.drop (offset + 2)).take 2)).toNat = length ∧ data.drop (offset + 4) = rest := by
  have hsub : data.drop (offset + 1) = [subType] ++ leBytes 2 length ++ rest := by
    rw [← List.drop_drop, h]
    rfl
  have hlen : data.drop (offset + 2) = leBytes 2 length ++ rest := by
    rw [← List.drop_drop, h]
    rfl
  have hread : (u16 (leBytes 2 length)).toNat = length := by
    rw [u16, List.take_of_length_le (by rw [length_leBytes]), leNat_leBytes hlength,
      Nat.toUInt16_eq, UInt16.toNat_ofNat', Nat.mod_eq_of_lt hlength]
  refine ⟨?_, ?_, ?_, ?_⟩
  · rw [h]
    rfl
  · rw [hsub]
    rfl
  · rw [hlen, take_leBytes_append, hread]
  · rw [← List.drop_drop, h]
    exact List.drop_left' (by simp)

/-- A node adds its text. -/
theorem value_readNodes_cons {n : Node} (hstop : offset + n.encode.length ≤ stop)
    (h : data.drop offset = n.encode ++ rest) :
    (readNodes data stop offset).value
      = n.text ++ (readNodes data stop (offset + n.encode.length)).value := by
  have hshort := n.short
  have hsize : n.encode.length = 4 + n.data.length := by
    simp only [Node.encode, List.length_append, length_leBytes, List.length_cons, List.length_nil]
  rw [Node.encode, List.append_assoc] at h
  obtain ⟨htype, hsub, hlength, hdata⟩ := head_of_drop hshort h
  have hnot : ¬(4 + n.data.length < 4 ∨ offset + (4 + n.data.length) > stop ∨ n.type = 0x7F) := by
    rintro (hlt | hgt | hend)
    · omega
    · omega
    · exact n.type_ne hend
  have htext : units ((data.drop (offset + 4)).take ((4 + n.data.length - 4) / 2 * 2))
      = units n.data := by
    rw [hdata, Nat.add_sub_cancel_left, List.take_append_of_le_length (by omega), units_take,
      Nat.mul_div_cancel _ Nat.two_pos, List.take_of_length_le (by rw [length_units])]
  rw [readNodes, if_pos (by omega)]
  simp only [value_bind, value_raw, htype, hsub, hlength]
  rw [dif_neg hnot, Node.text, hsize]
  split
  · rw [value_bind, value_raw, htext, value_bind, value_pure]
  · rfl

/-- The nodes up to the end node add their texts. -/
theorem value_readNodes {nodes : List Node} {endSubType : UInt8}
    (hstop : offset + (nodes.flatMap Node.encode ++ endNode endSubType).length ≤ stop)
    (h : data.drop offset = nodes.flatMap Node.encode ++ (endNode endSubType ++ rest)) :
    (readNodes data stop offset).value = nodes.flatMap Node.text := by
  induction nodes generalizing offset with
  | nil =>
    have hfour : (endNode endSubType).length = 4 := rfl
    rw [List.flatMap_nil, List.nil_append, hfour] at hstop
    rw [List.flatMap_nil, List.nil_append, endNode] at h
    obtain ⟨htype, -, -, -⟩ := head_of_drop (by decide) h
    rw [readNodes, if_pos hstop, value_bind, value_bind, value_bind,
      dif_pos (.inr (.inr htype))]
    rfl
  | cons n nodes ih =>
    rw [List.flatMap_cons, List.append_assoc] at h
    rw [List.flatMap_cons, List.append_assoc, List.length_append] at hstop
    have hnext : data.drop (offset + n.encode.length)
        = nodes.flatMap Node.encode ++ (endNode endSubType ++ rest) := by
      rw [← List.drop_drop, h, List.drop_left]
    rw [value_readNodes_cons (by omega) h, ih (by omega) hnext, List.flatMap_cons]

/-- **A load option reads back**, with what is behind its device path not looked at. -/
theorem parseLoadOption_encode (o : LoadOption) :
    (parseLoadOption o.encode).value = some o.parsed := by
  have hattributes : o.encode = leBytes 4 o.attributes.toNat ++ (leBytes 2 o.pathLength.toNat ++
      (zString o.description ++ (o.path ++ o.optional))) := by
    simp only [LoadOption.encode, List.append_assoc]
  have hlength : o.encode.drop 4 = leBytes 2 o.pathLength.toNat ++
      (zString o.description ++ (o.path ++ o.optional)) := by
    rw [hattributes]
    exact List.drop_left' (length_leBytes _ _)
  have hdescription : o.encode.drop 6 = zString o.description ++ (o.path ++ o.optional) := by
    have hsix : o.encode.drop 6 = (o.encode.drop 4).drop 2 := by rw [List.drop_drop]
    rw [hsix, hlength]
    exact List.drop_left' (length_leBytes _ _)
  have hpath : o.encode.drop (6 + (zString o.description).length) = o.path ++ o.optional := by
    rw [← List.drop_drop, hdescription, List.drop_left]
  have hsize : o.encode.length
      = 6 + (zString o.description).length + o.path.length + o.optional.length := by
    simp only [LoadOption.encode, List.length_append, length_leBytes]
  have hcovers : o.path.length ≤ o.pathLength.toNat := o.covers
  have hnodes : (readNodes o.encode (min o.encode.length
      (6 + (zString o.description).length + o.pathLength.toNat))
        (6 + (zString o.description).length)).value = o.nodes.flatMap Node.text := by
    rw [LoadOption.path, List.append_assoc] at hpath
    rw [LoadOption.path] at hcovers hsize
    exact value_readNodes (by omega) hpath
  have hattributesRead : u32 ((o.encode.drop 0).take 4) = o.attributes := by
    rw [List.drop_zero, hattributes, take_leBytes_append, u32_leBytes]
  have hlengthRead : u16 ((o.encode.drop 4).take 2) = o.pathLength := by
    rw [hlength, take_leBytes_append, u16_leBytes]
  rw [parseLoadOption, if_neg (by omega)]
  simp only [value_bind, value_raw, value_pure, hattributesRead, hlengthRead,
    value_readDescription o.description_nul hdescription, hnodes]
  rfl

end Reading

end WinSys.Firmware
