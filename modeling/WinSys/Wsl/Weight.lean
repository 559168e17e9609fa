import WinSys.Wsl.Own
import Mathlib.Algebra.BigOperators.Group.Finset.Basic

/-!
# The weight of the command lines

Every line of a command line goes to one process at most, and a line that is read as a mark or as a
file header goes to none. The weight of a text is the characters of it that show; no line raises
what the processes are shown together by more than its own.

* `Reader.pot`, `pot_readLine`
* `pot_processes`
-/

namespace WinSys.Wsl

open Infra

/-- What UTF-8 is relied on for: an ASCII character is decoded by itself, whatever is around it, and
a line end from nothing else. -/
structure Conversions.Utf8 (conv : Conversions) : Prop where
  empty : conv.fromUtf8 [] = []
  ascii : ∀ before ch after, ch < 0x80 →
    conv.fromUtf8 (before ++ ch :: after) = conv.fromUtf8 before ++ ch.toUInt16 :: conv.fromUtf8 after
  lineEnd : ∀ text, newline ∉ text → (10 : WChar) ∉ conv.fromUtf8 text

variable {conv : Conversions} {l : Listing} {pageSize : UInt32} {r : Reader} {line : Bytes}

/-! ## weight -/

/-- The characters that are neither a space nor a line end. -/
def weight (text : WString) : ℕ := text.countP fun c => c ≠ 32 && c ≠ 10

theorem weight_append (a b : WString) : weight (a ++ b) = weight a + weight b :=
  List.countP_append

/-- The weight of a line, decoded. -/
def Conversions.weight (conv : Conversions) (line : Bytes) : ℕ := Wsl.weight (conv.fromUtf8 line)

section Weight

variable (hconv : conv.Utf8)

include hconv

theorem weight_nil : conv.weight [] = 0 := by
  rw [Conversions.weight, hconv.empty]
  rfl

theorem weight_append_space (a b : Bytes) :
    conv.weight (a ++ space :: b) = conv.weight a + conv.weight b := by
  have h := hconv.ascii a space b (by decide)
  rw [Conversions.weight, h, weight_append, weight, weight, List.countP_cons_of_neg (by decide)]
  rfl

theorem weight_joinLine (a b : Bytes) :
    conv.weight (joinLine a b) = conv.weight a + conv.weight b := by
  unfold joinLine
  split
  · next h => rw [h, weight_nil hconv, List.nil_append, Nat.zero_add]
  · rw [List.append_assoc, List.singleton_append, weight_append_space hconv]

theorem weight_foldl_joinLine (ls : List Bytes) (text : Bytes) :
    conv.weight (ls.foldl joinLine text) = conv.weight text + (ls.map conv.weight).sum := by
  induction ls generalizing text with
  | nil => rfl
  | cons line ls ih =>
    rw [List.foldl_cons, ih, weight_joinLine hconv, List.map_cons, List.sum_cons, Nat.add_assoc]

theorem weight_trimEnd (text : Bytes) : conv.weight (trimEnd text) = conv.weight text := by
  induction text using List.reverseRecOn with
  | nil => rfl
  | append_singleton text ch ih =>
    rw [trimEnd, List.rdropWhile_concat]
    split
    · next hch =>
      have hblank : ch < 0x80 ∧ (ch.toUInt16 = 32 ∨ ch.toUInt16 = 10) := by
        simp only [Bool.or_eq_true, decide_eq_true_eq] at hch
        rcases hch with rfl | rfl
        · exact ⟨by decide, Or.inl (by decide)⟩
        · exact ⟨by decide, Or.inr (by decide)⟩
      have h := hconv.ascii text ch [] hblank.1
      have hzero : weight [ch.toUInt16] = 0 := by
        rcases hblank.2 with h | h <;> rw [h] <;> rfl
      refine ih.trans ?_
      rw [Conversions.weight, Conversions.weight, h, hconv.empty, weight_append, hzero, Nat.add_zero]
    · rfl

/-- A mark, and a file header, shows. -/
theorem weight_pos (h : ¬ LinuxProcess.IsText line) : 0 < conv.weight line := by
  have hhead : ∃ ch rest, line = ch :: rest ∧ (ch = 35 ∨ ch = 61) := by
    by_contra hnot
    refine h ⟨?_, ?_, ?_⟩
    · rintro rfl
      exact hnot ⟨35, _, rfl, Or.inl rfl⟩
    · by_contra hmark
      unfold sectionOf at hmark
      split at hmark
      · next heq => exact hnot ⟨35, _, heq, Or.inl rfl⟩
      split at hmark
      · next heq => exact hnot ⟨35, _, heq, Or.inl rfl⟩
      split at hmark
      · next heq => exact hnot ⟨35, _, heq, Or.inl rfl⟩
      split at hmark
      · next heq => exact hnot ⟨35, _, heq, Or.inl rfl⟩
      split at hmark
      · next heq => exact hnot ⟨35, _, heq, Or.inl rfl⟩
      · exact hmark rfl
    · by_contra hheader
      rw [Bool.not_eq_false, isFileHeader, Bool.and_eq_true, decide_eq_true_eq] at hheader
      obtain ⟨rest, rfl⟩ := hheader.1
      exact hnot ⟨61, _, rfl, Or.inr rfl⟩
  obtain ⟨ch, rest, rfl, hch⟩ := hhead
  have hascii : ch < 0x80 := by rcases hch with rfl | rfl <;> decide
  have happend := hconv.ascii [] ch rest hascii
  rw [List.nil_append, hconv.empty, List.nil_append] at happend
  rw [Conversions.weight, happend, weight]
  refine List.countP_pos_iff.mpr ⟨ch.toUInt16, List.mem_cons_self, ?_⟩
  rcases hch with rfl | rfl <;> decide

end Weight

/-! ## what is shown of the command lines -/

/-- The weight of what some processes are shown, the text being read included. -/
def Reader.pot (conv : Conversions) (pids : Finset UInt32) (r : Reader) : ℕ :=
  (∑ pid ∈ pids, weight ((r.commandLines.lookup pid).getD []))
    + if r.cmdlinePid ∈ pids then conv.weight r.cmdline else 0

/-- What a line can add. -/
def Conversions.gain (conv : Conversions) (line : Bytes) : ℕ :=
  if LinuxProcess.IsText line then conv.weight line else 0

section Pot

variable {pids : Finset UInt32} (hconv : conv.Utf8) (hzero : 0 ∉ pids)

theorem pot_eq {r' : Reader} (hl : r'.commandLines = r.commandLines)
    (hp : r'.cmdlinePid = r.cmdlinePid) (hc : r'.cmdline = r.cmdline) :
    r'.pot conv pids = r.pot conv pids := by
  rw [Reader.pot, Reader.pot, hl, hp, hc]

include hconv hzero

/-- A flush moves the text being read to its process, where it replaces another. -/
theorem pot_flush : (r.flushCmdline conv).pot conv pids ≤ r.pot conv pids := by
  have hnext : (r.flushCmdline conv).pot conv pids
      = ∑ pid ∈ pids, weight (((r.flushCmdline conv).commandLines.lookup pid).getD []) := by
    have hpid : (r.flushCmdline conv).cmdlinePid = 0 := rfl
    rw [Reader.pot, hpid, if_neg hzero, Nat.add_zero]
  rw [hnext, Reader.pot]
  by_cases hpid : r.cmdlinePid = 0
  · have hlines : (r.flushCmdline conv).commandLines = r.commandLines := if_pos hpid
    rw [hlines]
    exact Nat.le_add_right _ _
  · have hlines : (r.flushCmdline conv).commandLines
        = r.commandLines.insert r.cmdlinePid (conv.fromUtf8 (trimEnd r.cmdline)) := if_neg hpid
    rw [hlines]
    have hother : ∀ pid ∈ pids.erase r.cmdlinePid,
        weight (((r.commandLines.insert r.cmdlinePid
          (conv.fromUtf8 (trimEnd r.cmdline))).lookup pid).getD [])
        = weight ((r.commandLines.lookup pid).getD []) := by
      intro pid hmem
      rw [Finmap.lookup_insert_of_ne _ (Finset.ne_of_mem_erase hmem)]
    by_cases hmem : r.cmdlinePid ∈ pids
    · rw [if_pos hmem, ← Finset.add_sum_erase _ _ hmem, ← Finset.add_sum_erase pids
        (fun pid => weight ((r.commandLines.lookup pid).getD [])) hmem, Finset.sum_congr rfl hother,
        Finmap.lookup_insert]
      have hown : weight (conv.fromUtf8 (trimEnd r.cmdline)) = conv.weight r.cmdline :=
        weight_trimEnd hconv r.cmdline
      simp only [Option.getD_some, hown]
      omega
    · rw [Finset.erase_eq_of_notMem hmem] at hother
      rw [Finset.sum_congr rfl hother]
      exact Nat.le_add_right _ _

theorem pot_enter (next : Section) : (r.enter conv line next).pot conv pids ≤ r.pot conv pids := by
  have henter : (r.enter conv line next).pot conv pids
      = (if r.current = .cmdline then r.flushCmdline conv else r).pot conv pids := pot_eq rfl rfl rfl
  rw [henter]
  split
  · exact pot_flush hconv hzero
  · exact Nat.le_refl _

theorem pot_fileHeader (pid : UInt32) :
    { r.flushCmdline conv with cmdlinePid := pid }.pot conv pids ≤ r.pot conv pids := by
  refine Nat.le_trans (Nat.le_of_eq ?_) (pot_flush hconv hzero)
  have hempty : conv.weight [] = 0 := weight_nil hconv
  show _ + (if pid ∈ pids then conv.weight [] else 0) = _ + (if 0 ∈ pids then _ else 0)
  rw [hempty, ite_self, if_neg hzero]

/-- A line of text is added to the text being read, if there is any. -/
theorem pot_readCmdline : (r.readCmdline conv line).pot conv pids
    ≤ r.pot conv pids + if isFileHeader line then 0
      else if r.cmdlinePid ∈ pids then conv.weight line else 0 := by
  unfold Reader.readCmdline
  split
  · exact Nat.le_trans (pot_fileHeader hconv hzero _) (Nat.le_add_right _ _)
  · split
    · exact Nat.le_add_right _ _
    · show (∑ pid ∈ pids, weight ((r.commandLines.lookup pid).getD []))
        + (if r.cmdlinePid ∈ pids then conv.weight (joinLine r.cmdline line) else 0) ≤ _
      rw [weight_joinLine hconv, Reader.pot]
      by_cases hmem : r.cmdlinePid ∈ pids
      · rw [if_pos hmem, if_pos hmem, if_pos hmem, Nat.add_assoc]
      · rw [if_neg hmem, if_neg hmem, if_neg hmem, Nat.add_zero]

/-- A line adds its text at most, and only to a text being read. -/
theorem pot_readLine : (r.readLine conv pageSize line).pot conv pids ≤ r.pot conv pids
    + if r.ended = false ∧ r.current = .cmdline ∧ r.cmdlinePid ∈ pids then conv.gain line else 0 := by
  cases hended : r.ended with
  | true =>
    rw [Reader.readLine, if_pos hended]
    exact Nat.le_add_right _ _
  | false =>
    by_cases hF : line = ascii "#F"
    · rw [Reader.readLine, if_neg (by simp [hended]), if_pos hF]
      exact Nat.le_add_right _ _
    · cases hmark : sectionOf line with
      | some next =>
        rw [readLine_mark hended hF hmark]
        exact Nat.le_trans (pot_enter hconv hzero next) (Nat.le_add_right _ _)
      | none =>
        rw [readLine_plain hended ⟨hF, hmark⟩]
        cases hcurrent : r.current with
        | cmdline =>
          refine Nat.le_trans (pot_readCmdline hconv hzero) (Nat.add_le_add_left ?_ _)
          cases hheader : isFileHeader line with
          | true => exact Nat.zero_le _
          | false =>
            have htext : LinuxProcess.IsText line := ⟨hF, hmark, hheader⟩
            by_cases hmem : r.cmdlinePid ∈ pids
            · simp [hmem, Conversions.gain, htext]
            · simp [hmem]
        | none => exact Nat.le_add_right _ _
        | header =>
          refine Nat.le_trans (Nat.le_of_eq ?_) (Nat.le_add_right _ _)
          show (r.readHeader conv line).pot conv pids = _
          unfold Reader.readHeader
          dsimp only
          repeat' split
          all_goals exact pot_eq rfl rfl rfl
        | stat =>
          refine Nat.le_trans (Nat.le_of_eq ?_) (Nat.le_add_right _ _)
          show (r.readStat conv pageSize line).pot conv pids = _
          unfold Reader.readStat
          split <;> exact pot_eq rfl rfl rfl
        | uid =>
          refine Nat.le_trans (Nat.le_of_eq ?_) (Nat.le_add_right _ _)
          show (r.readUid line).pot conv pids = _
          unfold Reader.readUid
          repeat' split
          all_goals exact pot_eq rfl rfl rfl
        | thread =>
          refine Nat.le_trans (Nat.le_of_eq ?_) (Nat.le_add_right _ _)
          show (r.readThread conv pageSize line).pot conv pids = _
          unfold Reader.readThread
          repeat' split
          all_goals exact pot_eq rfl rfl rfl

theorem pot_readLines (ls : List Bytes) :
    (r.readLines conv pageSize ls).pot conv pids ≤ r.pot conv pids + (ls.map conv.gain).sum := by
  induction ls generalizing r with
  | nil => exact Nat.le_refl _
  | cons line ls ih =>
    have hline := @pot_readLine conv pageSize r line pids hconv hzero
    have hrest := @ih (r.readLine conv pageSize line)
    have hgain : (if r.ended = false ∧ r.current = .cmdline ∧ r.cmdlinePid ∈ pids
        then conv.gain line else 0) ≤ conv.gain line := by
      split
      · exact Nat.le_refl _
      · exact Nat.zero_le _
    rw [readLines_cons, List.map_cons, List.sum_cons]
    omega

end Pot

/-! ## a text that goes to none of the processes -/

/-- No text is read for the processes. -/
def Quiet (pids : Finset UInt32) (r : Reader) : Prop :=
  r.ended = true ∨ r.current ≠ .cmdline ∨ r.cmdlinePid ∉ pids

/-- A line that is no mark stays in the section, and in that of the command lines it is a text's
or begins another text. -/
theorem readLine_stays (hplain : Plain line) :
    (r.readLine conv pageSize line).current = r.current
      ∧ (r.readLine conv pageSize line).cmdlinePid
        = if r.ended = false ∧ r.current = .cmdline ∧ isFileHeader line = true
          then pidOfPath (line.drop 4) else r.cmdlinePid := by
  cases hended : r.ended with
  | true =>
    rw [Reader.readLine, if_pos hended, if_neg (by simp)]
    exact ⟨rfl, rfl⟩
  | false =>
    rw [readLine_plain hended hplain]
    cases hcurrent : r.current with
    | cmdline =>
      show (r.readCmdline conv line).current = _ ∧ (r.readCmdline conv line).cmdlinePid = _
      rw [Reader.readCmdline]
      cases hheader : isFileHeader line with
      | true => exact ⟨hcurrent, rfl⟩
      | false =>
        simp only [Bool.false_eq_true, if_false, and_false]
        split <;> exact ⟨hcurrent, rfl⟩
    | none =>
      rw [if_neg (by simp)]
      exact ⟨hcurrent, rfl⟩
    | header =>
      rw [if_neg (by simp)]
      show (r.readHeader conv line).current = _ ∧ (r.readHeader conv line).cmdlinePid = _
      unfold Reader.readHeader
      dsimp only
      repeat' split
      all_goals exact ⟨hcurrent, rfl⟩
    | stat =>
      rw [if_neg (by simp)]
      show (r.readStat conv pageSize line).current = _
        ∧ (r.readStat conv pageSize line).cmdlinePid = _
      unfold Reader.readStat
      split <;> exact ⟨hcurrent, rfl⟩
    | uid =>
      rw [if_neg (by simp)]
      show (r.readUid line).current = _ ∧ (r.readUid line).cmdlinePid = _
      unfold Reader.readUid
      repeat' split
      all_goals exact ⟨hcurrent, rfl⟩
    | thread =>
      rw [if_neg (by simp)]
      show (r.readThread conv pageSize line).current = _
        ∧ (r.readThread conv pageSize line).cmdlinePid = _
      unfold Reader.readThread
      repeat' split
      all_goals exact ⟨hcurrent, rfl⟩

theorem head_withoutReturn (h : line.head? ≠ some 35) : (withoutReturn line).head? ≠ some 35 := by
  unfold withoutReturn
  split
  · match line, h with
    | [], _ => simp
    | [_], _ => simp
    | a :: b :: rest, h => simpa using h
  · exact h

section Quiet

variable {pids : Finset UInt32} (hconv : conv.Utf8) (hzero : 0 ∉ pids)

theorem Quiet.readLine (h : Quiet pids r) (htext : LinuxProcess.IsText line) :
    Quiet pids (r.readLine conv pageSize line) := by
  obtain ⟨hF, hmark, hheader⟩ := htext
  obtain ⟨hcurrent, hpid⟩ := @readLine_stays conv pageSize r line ⟨hF, hmark⟩
  rcases h with h | h | h
  · rw [Reader.readLine, if_pos h]
    exact Or.inl h
  · exact Or.inr (Or.inl (by rw [hcurrent]; exact h))
  · refine Or.inr (Or.inr ?_)
    rw [hpid, if_neg (by simp [hheader])]
    exact h

include hconv hzero

theorem Quiet.pot_readLine (h : Quiet pids r) :
    (r.readLine conv pageSize line).pot conv pids ≤ r.pot conv pids := by
  have hline := @Wsl.pot_readLine conv pageSize r line pids hconv hzero
  rw [if_neg] at hline
  · exact hline
  · rintro ⟨hended, hcurrent, hmem⟩
    rcases h with h | h | h
    · rw [hended] at h
      cases h
    · exact h hcurrent
    · exact h hmem

theorem Quiet.pot_text {ls : List Bytes} (h : Quiet pids r)
    (htext : ∀ line ∈ ls, LinuxProcess.IsText line) :
    (r.readLines conv pageSize ls).pot conv pids ≤ r.pot conv pids := by
  induction ls generalizing r with
  | nil => exact Nat.le_refl _
  | cons line ls ih =>
    have hline := htext line List.mem_cons_self
    exact Nat.le_trans (ih (h.readLine hline) fun l' hl' => htext l' (List.mem_cons_of_mem line hl'))
      (h.pot_readLine hconv hzero)

/-- Outside the command lines nothing is added. -/
theorem pot_plain {ls : List Bytes} (h : r.ended = true ∨ r.current ≠ .cmdline)
    (hplain : ∀ line ∈ ls, Plain line) :
    (r.readLines conv pageSize ls).pot conv pids ≤ r.pot conv pids := by
  induction ls generalizing r with
  | nil => exact Nat.le_refl _
  | cons line ls ih =>
    have hstays := @readLine_stays conv pageSize r line (hplain line List.mem_cons_self)
    have hquiet : Quiet pids r := h.imp id Or.inl
    rw [readLines_cons]
    refine Nat.le_trans (ih ?_ fun l' hl' => hplain l' (List.mem_cons_of_mem line hl'))
      (hquiet.pot_readLine hconv hzero)
    rcases h with h | h
    · rw [Reader.readLine, if_pos h]
      exact Or.inl h
    · exact Or.inr (by rw [hstays.1]; exact h)

/-- **The lines of a process add its own text at most**, and nothing if it is not one of the
processes and its text is clean. -/
theorem pot_process (p : LinuxProcess) (hclean : p.pid ∉ pids → p.CleanCommand) :
    (r.readLines conv pageSize (p.cmdlineLines.map withoutReturn)).pot conv pids ≤ r.pot conv pids
      + if p.pid ∈ pids then (p.commandLines.map conv.gain).sum else 0 := by
  obtain ⟨hprinted, hplain, hheader, hpid⟩ := cmdlineHeader_reads p
  have hlines : p.cmdlineLines.map withoutReturn = p.cmdlineHeader :: p.commandLines := by
    rw [LinuxProcess.cmdlineLines, List.map_cons, hprinted.withoutReturn]
    rfl
  have hgain : conv.gain p.cmdlineHeader = 0 := by
    rw [Conversions.gain, if_neg]
    rintro ⟨-, -, hnot⟩
    rw [hheader] at hnot
    cases hnot
  have hstart := @pot_readLine conv pageSize r p.cmdlineHeader pids hconv hzero
  rw [hgain, ite_self, Nat.add_zero] at hstart
  rw [hlines, readLines_cons]
  by_cases hmem : p.pid ∈ pids
  · rw [if_pos hmem]
    have hrest := @pot_readLines conv pageSize (r.readLine conv pageSize p.cmdlineHeader) pids hconv
      hzero p.commandLines
    omega
  · rw [if_neg hmem]
    have hquiet : Quiet pids (r.readLine conv pageSize p.cmdlineHeader) := by
      have hstays := @readLine_stays conv pageSize r p.cmdlineHeader hplain
      cases hended : r.ended with
      | true =>
        rw [Reader.readLine, if_pos hended]
        exact Or.inl hended
      | false =>
        by_cases hcurrent : r.current = .cmdline
        · refine Or.inr (Or.inr ?_)
          rw [hstays.2, if_pos ⟨hended, hcurrent, hheader⟩, hpid]
          exact hmem
        · exact Or.inr (Or.inl (by rw [hstays.1]; exact hcurrent))
    exact Nat.le_trans (hquiet.pot_text hconv hzero (hclean hmem)) hstart

theorem pot_processes (ps : List LinuxProcess)
    (hclean : ∀ p ∈ ps, p.pid ∉ pids → p.CleanCommand) :
    (r.readLines conv pageSize ((ps.flatMap LinuxProcess.cmdlineLines).map withoutReturn)).pot conv
        pids ≤ r.pot conv pids
      + (ps.map fun p => if p.pid ∈ pids then (p.commandLines.map conv.gain).sum else 0).sum := by
  induction ps generalizing r with
  | nil => exact Nat.le_refl _
  | cons p ps ih =>
    have hfirst := @pot_process conv pageSize r pids hconv hzero p (hclean p List.mem_cons_self)
    have hrest := @ih (r.readLines conv pageSize (p.cmdlineLines.map withoutReturn))
      fun q hq => hclean q (List.mem_cons_of_mem p hq)
    rw [List.flatMap_cons, List.map_append, readLines_append, List.map_cons, List.sum_cons]
    omega

theorem pot_tail (threads : Bool) :
    (r.readLines conv pageSize ((l.tailLines threads).map withoutReturn)).pot conv pids
      ≤ r.pot conv pids := by
  have hgain : ∀ mark, mark ∈ [ascii "#T", ascii "#E"] → conv.gain mark = 0 := by
    intro mark hmark
    rw [Conversions.gain, if_neg]
    rintro ⟨-, hnone, -⟩
    rcases List.mem_cons.mp hmark with rfl | hmark
    · exact absurd hnone (by decide)
    · obtain rfl := List.mem_singleton.mp hmark
      exact absurd hnone (by decide)
  have hmarkLine : ∀ (r : Reader) mark, mark ∈ [ascii "#T", ascii "#E"] →
      (r.readLine conv pageSize mark).pot conv pids ≤ r.pot conv pids := by
    intro r mark hmark
    have h := @pot_readLine conv pageSize r mark pids hconv hzero
    rwa [hgain mark hmark, ite_self, Nat.add_zero] at h
  have hmarks : withoutReturn (ascii "#T") = ascii "#T"
      ∧ withoutReturn (ascii "#E") = ascii "#E" := by decide
  cases threads with
  | false =>
    rw [Listing.tailLines, if_neg (by decide), List.nil_append, List.map_singleton, hmarks.2,
      readLines_cons, readLines_nil]
    exact hmarkLine r _ (by simp)
  | true =>
    rw [Listing.tailLines, if_pos rfl, List.map_append, List.map_singleton, List.map_cons,
      hmarks.1, hmarks.2, readLines_append, readLines_cons, readLines_cons, readLines_nil]
    have hthreads : (r.readLine conv pageSize (ascii "#T")).ended = true
        ∨ (r.readLine conv pageSize (ascii "#T")).current ≠ .cmdline := by
      cases hended : r.ended with
      | true =>
        rw [Reader.readLine, if_pos hended]
        exact Or.inl hended
      | false =>
        rw [readLine_mark hended (by decide) rfl]
        exact Or.inr fun h => (by cases h)
    have hplain : ∀ line ∈ l.threadLines.map withoutReturn, Plain line := by
      intro line hline
      obtain ⟨raw, hraw, rfl⟩ := List.mem_map.mp hline
      rcases mem_threadLines hraw with rfl | ⟨p, t, rfl⟩ | ⟨t, rfl⟩
      · exact ⟨by decide, rfl⟩
      · rw [(threadHeader_reads p t).1.withoutReturn]
        exact (threadHeader_reads p t).2.1
      · exact plain_of_head (head_withoutReturn head_firstLine)
    exact Nat.le_trans (hmarkLine _ _ (by simp)) (Nat.le_trans
      (pot_plain hconv hzero hthreads hplain) (hmarkLine r _ (by simp)))

end Quiet

end WinSys.Wsl
