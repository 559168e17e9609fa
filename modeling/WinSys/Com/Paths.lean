import WinSys.Infra.Text
import WinSys.Texts

/-!
# Paths on a drive

Paths are compared without case, as their components are: `FullPath.key`. A component has no
separator, so the components of a path's text are read back.
-/

namespace WinSys.Com

open Infra

def slash : WChar := 0x2F

def lower (text : WString) : WString := text.map foldCase

def dot : WString := wide "."

def dotDot : WString := wide ".."

/-- A name in a folder. -/
def Plain (name : WString) : Prop :=
  name ≠ [] ∧ name ≠ dot ∧ name ≠ dotDot ∧ backslash ∉ name ∧ slash ∉ name ∧ 0 ∉ name

instance : DecidablePred Plain := fun _ => inferInstanceAs (Decidable (_ ∧ _))

def Letter (c : WChar) : Prop := 0x41 ≤ c ∧ c ≤ 0x5A ∨ 0x61 ≤ c ∧ c ≤ 0x7A

instance : DecidablePred Letter := fun _ => inferInstanceAs (Decidable (_ ∨ _))

/-- A drive and the names below its root. -/
structure FullPath where
  drive : WChar
  names : List WString
  letter : Letter drive
  plain : ∀ name ∈ names, Plain name

namespace FullPath

variable (path : FullPath)

/-- The drive and the names, as they are compared. -/
def key : List WString := lower [path.drive, 0x3A] :: path.names.map lower

/-- The drive with a colon, and each name behind a backslash. -/
def text : WString := path.drive :: 0x3A :: path.names.flatMap (backslash :: ·)

end FullPath

/-! ## case -/

theorem notMem_lower {c : WChar} (hc : ¬Letter c) {text : WString} (h : c ∉ text) :
    c ∉ lower text := by
  intro hmem
  obtain ⟨a, ha, hfold⟩ := List.mem_map.mp hmem
  exact h ((foldCase_eq_iff hc a).mp hfold ▸ ha)

theorem lower_backslash : lower [backslash] = [backslash] := by decide

theorem lower_append (text more : WString) : lower (text ++ more) = lower text ++ lower more :=
  List.map_append

theorem lower_unlines (names : List WString) :
    lower (unlines backslash names) = unlines backslash (names.map lower) := by
  induction names with
  | nil => rfl
  | cons name names ih =>
    have hcons : backslash :: unlines backslash names = [backslash] ++ unlines backslash names := rfl
    rw [unlines_cons, List.map_cons, unlines_cons, ← ih, hcons, lower_append, lower_append,
      lower_backslash]
    rfl

/-! ## components -/

namespace FullPath

variable (path : FullPath)

theorem text_unlines :
    path.text ++ [backslash] = unlines backslash ([path.drive, 0x3A] :: path.names) := by
  have hnames : ∀ names : List WString, names.flatMap (backslash :: ·) ++ [backslash]
      = backslash :: unlines backslash names := by
    intro names
    induction names with
    | nil => rfl
    | cons name names ih =>
      rw [List.flatMap_cons, List.append_assoc, ih, unlines_cons, List.cons_append]
  rw [FullPath.text, unlines_cons, List.cons_append, List.cons_append, hnames]
  rfl

theorem lower_text : lower path.text ++ [backslash] = unlines backslash path.key := by
  rw [key, ← List.map_cons, ← lower_unlines, ← path.text_unlines, lower_append, lower_backslash]

theorem notMem_drive {c : WChar} (hc : ¬Letter c) (hcolon : c ≠ 0x3A) : c ∉ [path.drive, 0x3A] := by
  intro hmem
  obtain rfl | h := List.mem_pair.mp hmem
  · exact hc path.letter
  · exact hcolon h

theorem notMem_key : ∀ name ∈ path.key, backslash ∉ name := by
  intro name hname
  obtain rfl | hmem := List.mem_cons.mp hname
  · exact notMem_lower (by decide) (path.notMem_drive (by decide) (by decide))
  · obtain ⟨n, hn, rfl⟩ := List.mem_map.mp hmem
    exact notMem_lower (by decide) (path.plain n hn).2.2.2.1

end FullPath

end WinSys.Com
