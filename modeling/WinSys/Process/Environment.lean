import Mathlib.Data.List.DropRight
import WinSys.Infra.Payload
import WinSys.Infra.Text
import WinSys.Texts

/-!
# The environment a restarted process gets

`Process::GetEnvironment` reads a process's environment block as names and values, and
`Process::Restart` makes a block of them for the new process.

An entry is cut at its first `=` from its second character on. One that has none there gives an
empty value, as one that ends in its only `=` does, and the new block has the `=` in both.

* `EnvironmentBlock`: the blocks a process can have
* `getEnvironment_entries`: the pairs are the entries', in order
* `restart_same_entries_iff`: when the new block is the old one, entry for entry
-/

namespace WinSys.Process

open Infra Texts

/-! ## the source -/

/-- What the process parameters say of the environment. -/
structure EnvironmentParams where
  address : UInt64
  size : ℕ

/-- What `Restart` reads of a process, and what the calls it makes answer. -/
structure RestartTarget where
  fullImageName : WString
  commandLine : WString
  currentDirectory : WString
  /-- `none`: the process parameters could not be read -/
  params : Option EnvironmentParams
  /-- `ReadProcessMemory` -/
  readMemory : UInt64 → ℕ → Option Bytes
  /-- `GetFileAttributes` is not `INVALID_FILE_ATTRIBUTES` -/
  directoryExists : WString → Bool
  /-- `NtTerminateProcess` -/
  terminates : Bool

def equalSign : WChar := 0x3D

/-- The name and the value of an entry. A name may start with `=`. -/
def splitEntry (entry : WString) : WString × WString :=
  match findFrom [equalSign] entry 1 with
  | none => (entry, [])
  | some equal => (entry.take equal, entry.drop (equal + 1))

theorem length_drop_lt (c : WChar) (cs : WString) (n : ℕ) : (cs.drop n).length < (c :: cs).length := by
  rw [List.length_drop, List.length_cons]
  omega

/-- The loop over the characters up to `end`. -/
def readEntries : WString → List (WString × WString)
  | [] => []
  | c :: cs =>
    if c = 0 then []
    else
      -- `wcsnlen`; the next entry is behind the terminator
      let rest := cs.takeWhile (· ≠ 0)
      splitEntry (c :: rest) :: readEntries (cs.drop (rest.length + 1))
termination_by cs => cs.length
decreasing_by exact length_drop_lt _ _ _

def RestartTarget.getEnvironment (p : RestartTarget) : List (WString × WString) :=
  match p.params with
  | none => []
  | some params =>
    if params.address = 0 ∨ params.size < 2 ∨ 16 <<< 20 < params.size then []
    else
      match p.readMemory params.address params.size with
      | none => []
      | some buffer => readEntries (units buffer)

/-- `name=value` strings, then an empty one. -/
def restartEnvironment (pairs : List (WString × WString)) : WString :=
  let environment := pairs.flatMap fun (name, value) => name ++ [equalSign] ++ value ++ [0]
  if environment ≠ [] then environment ++ [0] else environment

/-- The arguments of `CreateProcess`. -/
structure CreateProcessArgs where
  image : WString
  commandLine : WString
  environment : Option WString
  directory : Option WString
deriving DecidableEq

def RestartTarget.restart (p : RestartTarget) : Option CreateProcessArgs :=
  let image := p.fullImageName
  if image = [] then none
  else
    let commandLine := if p.commandLine = [] then [quote] ++ image ++ [quote] else p.commandLine
    let directory := p.currentDirectory.rdropWhile (· = 0)
    let directory := if directory ≠ [] ∧ !p.directoryExists directory then [] else directory
    let environment := restartEnvironment p.getEnvironment
    if !p.terminates then none
    else some {
      image, commandLine
      environment := if environment = [] then none else some environment
      directory := if directory = [] then none else some directory }

/-! ## blocks -/

/-- How a block goes on behind its terminated entries. -/
inductive BlockEnd where
  /-- an empty entry, and anything behind it -/
  | closed (after : Bytes)
  /-- an entry cut at the block's size, and half a character of it -/
  | cut (last : WString) (half : Bytes)

/-- An environment block: entries, each with its terminator, and its end. -/
structure EnvironmentBlock where
  terminated : List WString
  ending : BlockEnd
  entry_ne : ∀ e ∈ terminated, e ≠ []
  entry_nul : ∀ e ∈ terminated, 0 ∉ e
  cut_nul : ∀ last half, ending = .cut last half → 0 ∉ last ∧ half.length < 2

namespace EnvironmentBlock

def bytes (b : EnvironmentBlock) : Bytes :=
  b.terminated.flatMap zString ++
    match b.ending with
    | .closed after => leBytes 2 0 ++ after
    | .cut last half => wideBytes last ++ half

/-- The entries before the first empty one. -/
def entries (b : EnvironmentBlock) : List WString :=
  b.terminated ++
    match b.ending with
    | .closed _ | .cut [] _ => []
    | .cut last _ => [last]

end EnvironmentBlock

/-! ## what is read -/

theorem readEntries_zero (rest : WString) : readEntries (0 :: rest) = [] := by
  rw [readEntries, if_pos rfl]

/-- An entry with its terminator is read, and the loop goes on behind it. -/
theorem readEntries_cons {e : WString} (hne : e ≠ []) (hnul : 0 ∉ e) (rest : WString) :
    readEntries (e ++ 0 :: rest) = splitEntry e :: readEntries rest := by
  cases e with
  | nil => exact absurd rfl hne
  | cons c cs =>
    obtain ⟨hc, hcs⟩ := not_or.mp (mt List.mem_cons.mpr hnul)
    have htake : (cs ++ 0 :: rest).takeWhile (· ≠ 0) = cs := by
      rw [List.takeWhile_append_of_pos fun a ha => decide_eq_true (ne_of_mem_of_not_mem ha hcs)]
      simp
    have hdrop : (cs ++ 0 :: rest).drop (cs.length + 1) = rest := by
      rw [← List.drop_drop, List.drop_left, List.drop_one, List.tail_cons]
    rw [List.cons_append, readEntries, if_neg (Ne.symm hc)]
    simp only [htake, hdrop]

/-- An entry that the end cuts is read as it is. -/
theorem readEntries_last {e : WString} (hne : e ≠ []) (hnul : 0 ∉ e) :
    readEntries e = [splitEntry e] := by
  cases e with
  | nil => exact absurd rfl hne
  | cons c cs =>
    obtain ⟨hc, hcs⟩ := not_or.mp (mt List.mem_cons.mpr hnul)
    have htake : cs.takeWhile (· ≠ 0) = cs :=
      List.takeWhile_eq_self_iff.mpr fun a ha => decide_eq_true (ne_of_mem_of_not_mem ha hcs)
    have hdrop : cs.drop (cs.length + 1) = [] := List.drop_of_length_le (by omega)
    rw [readEntries, if_neg (Ne.symm hc)]
    simp only [htake, hdrop, readEntries]

theorem readEntries_terminated {es : List WString} (hne : ∀ e ∈ es, e ≠ [])
    (hnul : ∀ e ∈ es, 0 ∉ e) (rest : WString) :
    readEntries (unlines 0 es ++ rest) = es.map splitEntry ++ readEntries rest := by
  induction es with
  | nil => rfl
  | cons e es ih =>
    have hes := ih (fun x hx => hne x (List.mem_cons_of_mem e hx))
      fun x hx => hnul x (List.mem_cons_of_mem e hx)
    rw [unlines_cons, List.append_assoc, List.cons_append,
      readEntries_cons (hne e List.mem_cons_self) (hnul e List.mem_cons_self), hes, List.map_cons,
      List.cons_append]

theorem wideBytes_flatMap (es : List WString) :
    es.flatMap zString = wideBytes (unlines 0 es) := by
  rw [wideBytes, unlines, List.flatMap_assoc]
  rfl

/-- **The pairs are the entries before the first empty one**, in order. -/
theorem readEntries_units (b : EnvironmentBlock) :
    readEntries (units b.bytes) = b.entries.map splitEntry := by
  obtain ⟨es, ending, hne, hnul, hcut⟩ := b
  rw [EnvironmentBlock.bytes, EnvironmentBlock.entries, wideBytes_flatMap, units_wideBytes_append,
    readEntries_terminated hne hnul, List.map_append]
  congr 1
  cases ending with
  | closed after => exact readEntries_zero _
  | cut last half =>
    obtain ⟨hlast, hhalf⟩ := hcut last half rfl
    simp only [units_wideBytes_append, units_of_length_lt hhalf, List.append_nil]
    cases last with
    | nil => simp [readEntries]
    | cons c cs => exact readEntries_last (List.cons_ne_nil c cs) hlast

/-! ## what is written -/

/-- What an entry is in the new block. -/
def rejoin (e : WString) : WString := (splitEntry e).1 ++ [equalSign] ++ (splitEntry e).2

/-- An entry with an `=` from its second character on stays what it is, another one gets an `=` at
its end. -/
theorem rejoin_eq (e : WString) :
    rejoin e = if equalSign ∈ e.tail then e else e ++ [equalSign] := by
  rw [rejoin, splitEntry]
  cases hfind : findFrom [equalSign] e 1 with
  | none =>
    have hno : equalSign ∉ e.tail := by
      intro hmem
      obtain ⟨i, hi, hget⟩ := List.mem_iff_getElem.mp hmem
      rw [List.length_tail] at hi
      rw [List.getElem_tail] at hget
      refine findFrom_eq_none.mp hfind (i + 1) (by omega) (by omega) ?_
      rw [List.drop_eq_getElem_cons (by omega), hget]
      exact List.prefix_append [equalSign] _
    simp [hno]
  | some i =>
    obtain ⟨hone, -, ⟨rest, hrest⟩, -⟩ := findFrom_eq_some.mp hfind
    have hnext : e.drop (i + 1) = rest := by
      rw [← List.drop_drop, ← hrest]
      rfl
    have hsplit : e = e.take i ++ [equalSign] ++ e.drop (i + 1) := by
      rw [hnext, List.append_assoc, hrest, List.take_append_drop]
    have hmem : equalSign ∈ e.tail := by
      have hdrop : e.drop i = e.tail.drop (i - 1) := by
        rw [← List.drop_one, List.drop_drop, Nat.add_sub_cancel' hone]
      refine List.mem_of_mem_drop (i := i - 1) ?_
      rw [← hdrop, ← hrest]
      exact List.mem_cons_self
    rw [if_pos hmem]
    exact hsplit.symm

theorem rejoin_eq_self_iff (e : WString) : rejoin e = e ↔ equalSign ∈ e.tail := by
  rw [rejoin_eq]
  split
  · next h => exact iff_of_true rfl h
  · next h => exact iff_of_false (fun heq => by simp at heq) h

/-- The block of entries: each with its terminator, then one more; nothing when there are none. -/
def blockOf (es : List WString) : WString :=
  if es = [] then [] else unlines 0 es ++ [0]

theorem restartEnvironment_map (es : List WString) :
    restartEnvironment (es.map splitEntry) = blockOf (es.map rejoin) := by
  have hflat : ((es.map splitEntry).flatMap fun (name, value) =>
      name ++ [equalSign] ++ value ++ [0]) = unlines 0 (es.map rejoin) := by
    rw [unlines, List.flatMap_map, List.flatMap_map]
    rfl
  rw [restartEnvironment, blockOf, hflat]
  cases es with
  | nil => rfl
  | cons e es => simp [unlines_cons]

theorem zero_notMem_rejoin {e : WString} (h : 0 ∉ e) : 0 ∉ rejoin e := by
  rw [rejoin_eq]
  split
  · exact h
  · rw [List.mem_append, not_or]
    exact ⟨h, by decide⟩

/-- Blocks of entries without NULs are the same just if the entries are. -/
theorem blockOf_inj {es es' : List WString} (h : ∀ e ∈ es, 0 ∉ e) (h' : ∀ e ∈ es', 0 ∉ e) :
    blockOf es = blockOf es' ↔ es = es' := by
  refine ⟨fun heq => ?_, fun heq => heq ▸ rfl⟩
  unfold blockOf at heq
  split at heq
  · next hes =>
    split at heq
    · next hes' => rw [hes, hes']
    · cases (List.append_ne_nil_of_right_ne_nil _ (List.cons_ne_nil _ _)) heq.symm
  · split at heq
    · cases (List.append_ne_nil_of_right_ne_nil _ (List.cons_ne_nil _ _)) heq
    · rw [← lines_unlines h, ← lines_unlines h', List.append_cancel_right heq]

theorem EnvironmentBlock.zero_notMem (b : EnvironmentBlock) : ∀ e ∈ b.entries, 0 ∉ e := by
  intro e he
  rw [EnvironmentBlock.entries, List.mem_append] at he
  cases he with
  | inl he => exact b.entry_nul e he
  | inr he =>
    split at he
    · cases he
    · cases he
    · next last half _ hending =>
      rw [List.mem_singleton] at he
      exact he ▸ (b.cut_nul last half hending).1

/-! ## the new block -/

/-- The process's environment is this block, and all of it is read. -/
structure RestartTarget.Reads (p : RestartTarget) (b : EnvironmentBlock) : Prop where
  params : ∃ params, p.params = some params ∧ params.address ≠ 0 ∧ params.size = b.bytes.length ∧
    p.readMemory params.address params.size = some b.bytes
  small : b.bytes.length ≤ 16 <<< 20

/-- The pairs are those of the block's entries, in order. -/
theorem getEnvironment_eq {p : RestartTarget} {b : EnvironmentBlock} (h : p.Reads b) :
    p.getEnvironment = b.entries.map splitEntry := by
  obtain ⟨⟨params, hparams, haddress, hsize, hread⟩, hsmall⟩ := h
  rw [← readEntries_units, RestartTarget.getEnvironment, hparams]
  by_cases hshort : params.size < 2
  · simp only [haddress, hshort, true_or, or_true, if_true]
    rw [units_of_length_lt (hsize ▸ hshort), readEntries]
  · have hlimit : ¬(params.address = 0 ∨ params.size < 2 ∨ 16 <<< 20 < params.size) := by
      rw [not_or, not_or, hsize]
      exact ⟨haddress, hsize ▸ hshort, not_lt.mpr hsmall⟩
    simp only [if_neg hlimit, hread]

theorem restart_environment {p : RestartTarget} {args : CreateProcessArgs}
    (h : p.restart = some args) :
    args.environment.getD [] = restartEnvironment p.getEnvironment := by
  rw [RestartTarget.restart] at h
  split at h
  · cases h
  · simp only at h
    split at h
    · cases h
    · cases h
      by_cases hempty : restartEnvironment p.getEnvironment = []
      · simp only [hempty, if_true, Option.getD_none]
      · simp only [if_neg hempty, Option.getD_some]

/-- **The new process's block is the old one, entry for entry**, just if every entry has an `=`
from its second character on. -/
theorem restart_same_entries_iff (p : RestartTarget) (b : EnvironmentBlock) (h : p.Reads b) :
    (∀ args, p.restart = some args →
      args.environment.getD [] = restartEnvironment p.getEnvironment) ∧
    (restartEnvironment p.getEnvironment = blockOf b.entries ↔
      ∀ e ∈ b.entries, equalSign ∈ e.tail) := by
  refine ⟨fun args hargs => restart_environment hargs, ?_⟩
  have hrejoined : ∀ e ∈ b.entries.map rejoin, 0 ∉ e := by
    intro e he
    obtain ⟨e, hmem, rfl⟩ := List.mem_map.mp he
    exact zero_notMem_rejoin (b.zero_notMem e hmem)
  rw [getEnvironment_eq h, restartEnvironment_map, blockOf_inj hrejoined b.zero_notMem]
  constructor
  · intro hmap e he
    rw [← rejoin_eq_self_iff]
    exact List.map_inj_left.mp (hmap.trans (List.map_id _).symm) e he
  · intro hequal
    refine (List.map_congr_left fun e he => ?_).trans (List.map_id _)
    exact (rejoin_eq_self_iff e).mpr (hequal e he)

/-- `=C:=D` and `A=`, and the block's end. -/
def sampleBlock : EnvironmentBlock where
  terminated := [wide "=C:=D", wide "A="]
  ending := .closed []
  entry_ne := by decide
  entry_nul := by decide
  cut_nul := nofun

/-- An entry without an `=`, cut at the block's size. -/
def bareBlock : EnvironmentBlock where
  terminated := []
  ending := .cut (wide "A") []
  entry_ne := nofun
  entry_nul := nofun
  cut_nul _ _ h := by
    cases h
    decide

def targetOf (b : EnvironmentBlock) : RestartTarget where
  fullImageName := wide "C:\\a.exe"
  commandLine := wide "a"
  currentDirectory := []
  params := some ⟨0x10000, b.bytes.length⟩
  readMemory _ _ := some b.bytes
  directoryExists _ := true
  terminates := true

theorem restart_sampleBlock :
    (targetOf sampleBlock).Reads sampleBlock ∧
    (∀ e ∈ sampleBlock.entries, equalSign ∈ e.tail) ∧
    restartEnvironment (targetOf sampleBlock).getEnvironment = blockOf sampleBlock.entries := by
  have hreads : (targetOf sampleBlock).Reads sampleBlock :=
    ⟨⟨_, rfl, by decide, rfl, rfl⟩, by decide⟩
  have hequal : ∀ e ∈ sampleBlock.entries, equalSign ∈ e.tail := by decide
  exact ⟨hreads, hequal, (restart_same_entries_iff _ _ hreads).2.mpr hequal⟩

/-- `A` becomes `A=`. -/
theorem restart_bareBlock :
    (targetOf bareBlock).Reads bareBlock ∧
    bareBlock.entries = [wide "A"] ∧
    restartEnvironment (targetOf bareBlock).getEnvironment = wide "A=" ++ [0, 0] ∧
    restartEnvironment (targetOf bareBlock).getEnvironment ≠ blockOf bareBlock.entries := by
  have hreads : (targetOf bareBlock).Reads bareBlock :=
    ⟨⟨_, rfl, by decide, rfl, rfl⟩, by decide⟩
  rw [getEnvironment_eq hreads]
  exact ⟨hreads, by decide, by decide, by decide⟩

end WinSys.Process
