import WinSys.Infra.Payload

/-!
# The diagnostics answer

`DotNetInfo::ParseProcessInfo`: what a .NET runtime says of its process over its diagnostics pipe.
-/

namespace WinSys.DotNet

open Infra PayloadReader

structure DotNetCoreProcessInfo where
  processId : UInt64
  runtimeCookie : Vector UInt8 16
  commandLine : WString
  os : WString
  architecture : WString
  /-- `ProcessInfo2`'s. -/
  entryAssembly : WString := []
  clrVersion : WString := []
deriving DecidableEq

/-! ## the parser -/

/-- So many characters, up to a NUL; a failed read gives none. -/
def characters (count : ℕ) : PayloadReader WString := do
  return (units (← get (count * 2))).takeWhile (· ≠ 0)

/-- A count of characters with the NUL, then the characters. -/
def countedString : PayloadReader WString := do
  let count ← uint32
  let ok ← isOk
  if ok = false ∨ count = 0 then return []
  else characters count.toNat

/-- What only `ProcessInfo2` has. -/
def extraString (v2 : Bool) : PayloadReader WString := if v2 then countedString else pure []

def processInfo (v2 : Bool) : PayloadReader DotNetCoreProcessInfo := do
  let processId ← uint64
  let runtimeCookie ← guid
  let commandLine ← countedString
  let os ← countedString
  let architecture ← countedString
  let entryAssembly ← extraString v2
  let clrVersion ← extraString v2
  return { processId, runtimeCookie, commandLine, os, architecture, entryAssembly, clrVersion }

def parseProcessInfo (payload : Bytes) (v2 : Bool) : Reads (Option DotNetCoreProcessInfo) :=
  read (processInfo v2) payload

/-! ## the encoding -/

/-- The encodings of a string: an empty one has two. -/
inductive Counted : WString → Bytes → Prop
  | text {t : WString} (hnul : 0 ∉ t) (hcount : t.length + 1 < 2 ^ 32) :
    Counted t (leBytes 4 (t.length + 1) ++ zString t)
  | empty : Counted [] (leBytes 4 0)

/-- What only `ProcessInfo2` has. -/
inductive Extra : Bool → WString → Bytes → Prop
  | v1 : Extra false [] []
  | v2 {t : WString} {bytes : Bytes} (h : Counted t bytes) : Extra true t bytes

/-- The answers that say the same. -/
inductive Answer (v2 : Bool) (info : DotNetCoreProcessInfo) : Bytes → Prop
  | intro {commandLine os architecture entryAssembly clrVersion : Bytes}
    (hcommandLine : Counted info.commandLine commandLine) (hos : Counted info.os os)
    (harchitecture : Counted info.architecture architecture)
    (hentryAssembly : Extra v2 info.entryAssembly entryAssembly)
    (hclrVersion : Extra v2 info.clrVersion clrVersion) :
    Answer v2 info (leBytes 8 info.processId.toNat ++ (info.runtimeCookie.toList ++
      (commandLine ++ (os ++ (architecture ++ (entryAssembly ++ clrVersion))))))

/-! ## a string -/

instance (count : ℕ) : Sticky (characters count) :=
  inferInstanceAs (Sticky (do return (units (← get (count * 2))).takeWhile (· ≠ 0)))

instance : Sticky countedString :=
  inferInstanceAs (Sticky (do
    let count ← uint32
    let ok ← isOk
    if ok = false ∨ count = 0 then return []
    else characters count.toNat))

instance (v2 : Bool) : Sticky (extraString v2) :=
  inferInstanceAs (Sticky (if v2 then countedString else pure []))

theorem parses_characters {t : WString} (h : 0 ∉ t) :
    Parses (characters (t.length + 1)) (zString t) t := by
  have hlength : (zString t).length = (t.length + 1) * 2 := by
    rw [zString, length_wideBytes, List.length_append, List.length_singleton, Nat.mul_comm]
  have hback : (units (zString t)).takeWhile (· ≠ 0) = t := by
    rw [units_zString, List.takeWhile_append_of_pos, List.takeWhile_cons_of_neg]
    · exact List.append_nil t
    · decide
    · intro c hc
      exact decide_eq_true fun h0 => h (h0 ▸ hc)
  have hparse := (parses_get_of_length hlength).map fun bytes => (units bytes).takeWhile (· ≠ 0)
  rw [hback] at hparse
  exact hparse

theorem parses_countedString {t : WString} {bytes : Bytes} (h : Counted t bytes) :
    Parses countedString bytes t := by
  cases h with
  | text hnul hcount =>
    have htoNat : (t.length + 1).toUInt32.toNat = t.length + 1 := by
      rw [Nat.toUInt32_eq, UInt32.toNat_ofNat', Nat.mod_eq_of_lt hcount]
    have hne : ¬ (true = false ∨ (t.length + 1).toUInt32 = 0) := by
      rintro (h | h)
      · cases h
      · rw [h] at htoNat
        exact absurd htoNat (Nat.succ_ne_zero _).symm
    have hcount := parses_uint32 (t.length + 1).toUInt32
    rw [htoNat] at hcount
    refine hcount.bind ?_
    rw [← List.nil_append (zString t)]
    refine parses_isOk.bind ?_
    rw [if_neg hne, htoNat]
    exact parses_characters hnul
  | empty =>
    rw [← List.append_nil (leBytes 4 0)]
    refine (parses_uint32 0).bind ?_
    rw [← List.append_nil []]
    refine parses_isOk.bind ?_
    rw [if_pos (.inr rfl)]
    exact parses_pure []

theorem parses_extraString {v2 : Bool} {t : WString} {bytes : Bytes} (h : Extra v2 t bytes) :
    Parses (extraString v2) bytes t := by
  cases h with
  | v1 => exact parses_pure []
  | v2 h => exact parses_countedString h

/-! ## the answer -/

instance (v2 : Bool) : Sticky (processInfo v2) := by
  unfold processInfo
  infer_instance

theorem parses_processInfo {v2 : Bool} {info : DotNetCoreProcessInfo} {bytes : Bytes}
    (h : Answer v2 info bytes) : Parses (processInfo v2) bytes info := by
  cases h with
  | intro hcommandLine hos harchitecture hentryAssembly hclrVersion =>
    refine (parses_uint64 _).bind ((parses_guid _).bind ?_)
    refine (parses_countedString hcommandLine).bind ((parses_countedString hos).bind ?_)
    refine (parses_countedString harchitecture).bind ?_
    refine (parses_extraString hentryAssembly).bind ?_
    exact (parses_extraString hclrVersion).map _

/-- An answer is decoded with anything behind it, none of its strict prefixes is, and nothing
outside a payload is read. -/
theorem parseProcessInfo_answer {v2 : Bool} {info : DotNetCoreProcessInfo} {bytes : Bytes}
    (h : Answer v2 info bytes) :
    (∀ rest, (parseProcessInfo (bytes ++ rest) v2).value = some info) ∧
    (∀ cut, cut <+: bytes → cut ≠ bytes → (parseProcessInfo cut v2).value = none) ∧
    ∀ payload, (parseProcessInfo payload v2).Safe :=
  ⟨(parses_processInfo h).read_append, fun _ => (parses_processInfo h).read_cut, safe_read⟩

/-- Process 7 of the command line "a", with empty strings in both encodings. -/
theorem parseProcessInfo_answer_process7 :
    let info : DotNetCoreProcessInfo :=
      { processId := 7, runtimeCookie := .replicate 16 1, commandLine := wide "a", os := [],
        architecture := [] }
    (parseProcessInfo (leBytes 8 7 ++ ((Vector.replicate 16 1).toList ++
      ((leBytes 4 2 ++ zString (wide "a")) ++ (leBytes 4 0 ++ ((leBytes 4 1 ++ zString []) ++
        (leBytes 4 0 ++ leBytes 4 0)))))) true).value = some info := by
  intro info
  have hanswer : Answer true info _ := .intro (.text (by decide) (by decide)) .empty
    (.text (by decide) (by decide)) (.v2 .empty) (.v2 .empty)
  have h := (parseProcessInfo_answer hanswer).1 []
  rw [List.append_nil] at h
  exact h

end WinSys.DotNet
