import WinSys.Infra.Preorder

/-!
# The windows of a process

`ProcessWindows::Enum` lists a process's top-level windows and its message-only ones, each with what
is in it, depth first; a window has the index of its parent.

* `addChildren`, `addTree`, `enum`: the source
* `Inside`: the trees that the windows make
* `enum_eq`: the list is that of the trees
-/

namespace WinSys.Windows

open Infra

/-! ## the source -/

/-- What the window manager answers. -/
structure WindowManager (HWnd : Type) where
  /-- `GetWindow` with `GW_CHILD` -/
  child : HWnd → Option HWnd
  /-- `GetWindow` with `GW_HWNDNEXT` -/
  next : HWnd → Option HWnd
  processOf : HWnd → UInt32
  /-- `EnumWindows`, in Z order -/
  topLevel : List HWnd
  /-- `FindWindowEx` with `HWND_MESSAGE`, one after another -/
  messageOnly : List HWnd

structure WindowInfo (HWnd : Type) where
  handle : HWnd
  parent : Int
  messageOnly : Bool
deriving DecidableEq, Repr

variable {HWnd : Type} (wm : WindowManager HWnd)

/-- The loop over a window's children in `AddTree`, with what each call of `AddTree` does; none when
so many turns are not enough. -/
def addChildren : ℕ → List (WindowInfo HWnd) → Option HWnd → Int → Option (List (WindowInfo HWnd))
  | 0, _, _, _ => none
  | _ + 1, windows, none, _ => some windows
  | turns + 1, windows, some child, index => do
    let windows ← addChildren turns (windows ++ [⟨child, index, false⟩]) (wm.child child)
      windows.length
    addChildren turns windows (wm.next child) index

/-- `AddTree` -/
def addTree (turns : ℕ) (windows : List (WindowInfo HWnd)) (hWnd : HWnd) (parent : Int)
    (messageOnly : Bool) : Option (List (WindowInfo HWnd)) :=
  addChildren wm turns (windows ++ [⟨hWnd, parent, messageOnly⟩]) (wm.child hWnd) windows.length

/-- `ProcessWindows::Enum` -/
def enum (turns : ℕ) (pid : UInt32) : Option (List (WindowInfo HWnd)) := do
  let windows ← (wm.topLevel.filter (wm.processOf · = pid)).foldlM
    (fun windows hWnd => addTree wm turns windows hWnd (-1) false) []
  (wm.messageOnly.filter (wm.processOf · = pid)).foldlM
    (fun windows hWnd => addTree wm turns windows hWnd (-1) true) windows

/-! ## the trees -/

/-- A window and those behind it, with what is in them. -/
inductive Inside : Option HWnd → Siblings HWnd → Prop
  | nil : Inside none .nil
  | cons {hWnd : HWnd} {children rest : Siblings HWnd} (hchildren : Inside (wm.child hWnd) children)
      (hrest : Inside (wm.next hWnd) rest) : Inside (some hWnd) (.cons hWnd children rest)

/-- A window of the trees, as it is in the list; a root is a message-only one or not. -/
def toWindow (messageOnly : Bool) (p : Placed HWnd) : WindowInfo HWnd :=
  ⟨p.value, indexOf p.parent, messageOnly && p.parent = none⟩

variable {wm}

theorem addChildren_eq {hWnd? : Option HWnd} {s : Siblings HWnd} (h : Inside wm hWnd? s) {turns : ℕ}
    (hturns : s.size < turns) (windows : List (WindowInfo HWnd)) (index depth : ℕ)
    (messageOnly : Bool) : addChildren wm turns windows hWnd? index
      = some (windows ++ (s.list (some index) depth windows.length).map (toWindow messageOnly)) := by
  induction h generalizing turns windows index depth with
  | nil =>
    obtain ⟨turns, rfl⟩ := Nat.exists_eq_succ_of_ne_zero (Nat.ne_zero_of_lt hturns)
    exact congrArg some (List.append_nil windows).symm
  | @cons hWnd children rest _ _ ihc ihr =>
    obtain ⟨turns, rfl⟩ := Nat.exists_eq_succ_of_ne_zero (Nat.ne_zero_of_lt hturns)
    rw [Siblings.size] at hturns
    rw [addChildren, ihc (by omega) _ _ (depth + 1)]
    show addChildren wm turns _ (wm.next hWnd) index = _
    rw [ihr (by omega) _ _ depth]
    simp [Siblings.list, toWindow, indexOf, Nat.add_assoc, Nat.add_comm 1 children.size]

/-- **A window's tree is listed** behind what is there already. -/
theorem addTree_eq {hWnd : HWnd} {children : Siblings HWnd}
    (h : Inside wm (wm.child hWnd) children) {turns : ℕ} (hturns : children.size < turns)
    (windows : List (WindowInfo HWnd)) (messageOnly : Bool) :
    addTree wm turns windows hWnd (-1) messageOnly
      = some (windows ++ ((Siblings.cons hWnd children .nil).list none 0 windows.length).map
          (toWindow messageOnly)) := by
  rw [addTree, addChildren_eq h hturns _ _ 1 messageOnly]
  simp [Siblings.list, toWindow, indexOf]

/-- Windows with what is in them, one after another. -/
def trees (inside : HWnd → Siblings HWnd) : List HWnd → Siblings HWnd
  | [] => .nil
  | hWnd :: hWnds => .cons hWnd (inside hWnd) (trees inside hWnds)

theorem roots_trees (inside : HWnd → Siblings HWnd) (hWnds : List HWnd) :
    (trees inside hWnds).roots = hWnds := by
  induction hWnds with
  | nil => rfl
  | cons hWnd hWnds ih => rw [trees, Siblings.roots, ih]

theorem trees_append (inside : HWnd → Siblings HWnd) (hWnds hWnds' : List HWnd) :
    trees inside (hWnds ++ hWnds') = (trees inside hWnds).append (trees inside hWnds') := by
  induction hWnds with
  | nil => rfl
  | cons hWnd hWnds ih => rw [List.cons_append, trees, ih, trees, Siblings.append]

theorem foldlM_addTree {inside : HWnd → Siblings HWnd} (hWnds : List HWnd)
    (h : ∀ hWnd ∈ hWnds, Inside wm (wm.child hWnd) (inside hWnd)) {turns : ℕ}
    (hturns : ∀ hWnd ∈ hWnds, (inside hWnd).size < turns) (windows : List (WindowInfo HWnd))
    (messageOnly : Bool) :
    hWnds.foldlM (fun windows hWnd => addTree wm turns windows hWnd (-1) messageOnly) windows
      = some (windows ++ ((trees inside hWnds).list none 0 windows.length).map
          (toWindow messageOnly)) := by
  induction hWnds generalizing windows with
  | nil => exact congrArg some (List.append_nil windows).symm
  | cons hWnd hWnds ih =>
    rw [List.foldlM_cons, addTree_eq (h hWnd List.mem_cons_self) (hturns hWnd List.mem_cons_self)]
    show hWnds.foldlM _ _ = _
    rw [ih (fun w hw => h w (List.mem_cons_of_mem _ hw))
      fun w hw => hturns w (List.mem_cons_of_mem _ hw)]
    simp [trees, Siblings.list, Nat.add_assoc, Nat.add_comm 1 (inside hWnd).size]

/-! ## all windows -/

/-- The process's top-level windows. -/
def topLevelOf (wm : WindowManager HWnd) (pid : UInt32) : List HWnd :=
  wm.topLevel.filter (wm.processOf · = pid)

/-- The process's message-only windows. -/
def messageOnlyOf (wm : WindowManager HWnd) (pid : UInt32) : List HWnd :=
  wm.messageOnly.filter (wm.processOf · = pid)

theorem indexOf_eq_neg_one_iff {i : Option ℕ} : indexOf i = -1 ↔ i = none :=
  ⟨fun h => indexOf_inj (j := none) h, fun h => by rw [h]; rfl⟩

theorem map_toWindow (messageOnly : Bool) (ps : List (Placed HWnd)) :
    (ps.map (toWindow messageOnly)).map (fun w => (w.handle, w.parent))
      = ps.map fun p => (p.value, indexOf p.parent) := by
  rw [List.map_map]
  rfl

/-- The roots of a list of trees. -/
theorem filter_map_toWindow (messageOnly : Bool) (s : Siblings HWnd) (first : ℕ) :
    (((s.list none 0 first).map (toWindow messageOnly)).filter (·.parent = -1)).map
        (fun w => (w.handle, w.messageOnly))
      = s.roots.map fun hWnd => (hWnd, messageOnly) := by
  have hroots : ((s.list none 0 first).filter (·.parent = none)).map Placed.value = s.roots :=
    Siblings.filter_roots s
  rw [← hroots, List.filter_map, List.map_map, List.map_map]
  have hpred : ((fun w : WindowInfo HWnd => decide (w.parent = -1)) ∘ toWindow messageOnly)
      = fun p => decide (p.parent = none) := by
    funext p
    exact decide_eq_decide.mpr indexOf_eq_neg_one_iff
  rw [hpred]
  refine List.map_congr_left fun p hp => ?_
  have hnone : p.parent = none := by simpa using (List.mem_filter.mp hp).2
  simp [toWindow, hnone]

/-- **All windows are listed**: the list has the trees' windows, depth first, each behind the window
that it is in. The roots are the top-level windows and then the message-only ones; no other window
is a message-only one. The trees are determined by the list. -/
theorem enum_windows {inside : HWnd → Siblings HWnd} {turns : ℕ} {pid : UInt32}
    (h : ∀ hWnd ∈ topLevelOf wm pid ++ messageOnlyOf wm pid,
      Inside wm (wm.child hWnd) (inside hWnd) ∧ (inside hWnd).size < turns) :
    ∃ windows, enum wm turns pid = some windows
      ∧ windows.map (·.handle)
        = (trees inside (topLevelOf wm pid ++ messageOnlyOf wm pid)).toList
      ∧ (∀ (i : ℕ) (w : WindowInfo HWnd), windows[i]? = some w → w.parent ≠ -1 →
        w.messageOnly = false ∧ ∃ j q, j < i ∧ w.parent = (j : ℕ) ∧ windows[j]? = some q)
      ∧ (windows.filter (·.parent = -1)).map (fun w => (w.handle, w.messageOnly))
        = (topLevelOf wm pid).map (·, false) ++ (messageOnlyOf wm pid).map (·, true)
      ∧ ∀ s : Siblings HWnd, (s.list none 0 0).map (fun p => (p.value, indexOf p.parent))
          = windows.map (fun w => (w.handle, w.parent)) →
        s = trees inside (topLevelOf wm pid ++ messageOnlyOf wm pid) := by
  set tops := topLevelOf wm pid with htops
  set messages := messageOnlyOf wm pid with hmessages
  set first := (trees inside tops).list none 0 0 with hfirst
  set second := (trees inside messages).list none 0 (trees inside tops).size with hsecond
  have hall : (trees inside (tops ++ messages)).list none 0 0 = first ++ second := by
    rw [trees_append, Siblings.list_append, Nat.zero_add]
  have henum : enum wm turns pid
      = some (first.map (toWindow false) ++ second.map (toWindow true)) := by
    have htop := foldlM_addTree tops (fun w hw => (h w (List.mem_append_left _ hw)).1)
      (fun w hw => (h w (List.mem_append_left _ hw)).2) [] false
    rw [List.nil_append, List.length_nil, ← hfirst] at htop
    have hmessage := foldlM_addTree messages (fun w hw => (h w (List.mem_append_right _ hw)).1)
      (fun w hw => (h w (List.mem_append_right _ hw)).2) (first.map (toWindow false)) true
    rw [List.length_map, hfirst, Siblings.length_list, ← hfirst, ← hsecond] at hmessage
    rw [enum, ← topLevelOf, ← htops, htop]
    exact hmessage
  have hplaces : (first.map (toWindow false) ++ second.map (toWindow true)).map
      (fun w => (w.handle, w.parent))
        = (first ++ second).map fun p => (p.value, indexOf p.parent) := by
    rw [List.map_append, map_toWindow, map_toWindow, List.map_append]
  refine ⟨_, henum, ?_, ?_, ?_, ?_⟩
  · have hvalues : ((trees inside (tops ++ messages)).list none 0 0).map Placed.value
        = (trees inside (tops ++ messages)).toList := Siblings.map_value_list _
    rw [← hvalues, hall, List.map_append, List.map_append, List.map_map, List.map_map]
    rfl
  · intro i w hw hparent
    have hpair := congrArg (·[i]?) hplaces
    simp only [List.getElem?_map, hw, Option.map_some, ← hall] at hpair
    obtain ⟨p, hp, hpw⟩ := Option.map_eq_some_iff.mp hpair.symm
    obtain ⟨-, hindex⟩ := Prod.mk.inj hpw
    cases hj : p.parent with
    | none =>
      rw [hj] at hindex
      exact absurd hindex.symm hparent
    | some j =>
      obtain ⟨hlt, q, hq, -⟩ := Siblings.parent_spec _ hp hj
      rw [hj] at hindex
      have hwindow : ∃ v, (first.map (toWindow false) ++ second.map (toWindow true))[j]? = some v := by
        rw [hall] at hq
        have hlength := (List.getElem?_eq_some_iff.mp hq).1
        refine ⟨_, List.getElem?_eq_getElem ?_⟩
        simpa using hlength
      obtain ⟨v, hv⟩ := hwindow
      refine ⟨?_, j, v, hlt, hindex.symm, hv⟩
      obtain hmem | hmem := List.mem_append.mp (List.mem_of_getElem? hw)
      · obtain ⟨p', -, rfl⟩ := List.mem_map.mp hmem
        rfl
      · obtain ⟨p', -, rfl⟩ := List.mem_map.mp hmem
        have hne : p'.parent ≠ none := fun hnone => hparent (by rw [toWindow, hnone]; rfl)
        simp [toWindow, hne]
  · rw [List.filter_append, List.map_append, hfirst, hsecond, filter_map_toWindow,
      filter_map_toWindow, roots_trees, roots_trees]
  · intro s hs
    rw [hplaces, ← hall] at hs
    have hinj : Function.Injective (Prod.map (id : HWnd → HWnd) indexOf) := by
      rintro ⟨a, i⟩ ⟨b, j⟩ hab
      obtain ⟨hvalue, hindex⟩ := Prod.mk.inj hab
      exact Prod.ext hvalue (indexOf_inj hindex)
    refine Siblings.list_inj (List.map_injective_iff.mpr hinj ?_)
    rw [List.map_map, List.map_map]
    exact hs

/-! A window with two in it, another process's window, and a message-only one with one in it. -/

def someManager : WindowManager ℕ where
  child hWnd := if hWnd = 0 then some 1 else if hWnd = 3 then some 4 else none
  next hWnd := if hWnd = 1 then some 2 else none
  processOf hWnd := if hWnd = 5 then 8 else 4
  topLevel := [0, 5]
  messageOnly := [3]

def someInside (hWnd : ℕ) : Siblings ℕ :=
  if hWnd = 0 then .cons 1 .nil (.cons 2 .nil .nil) else if hWnd = 3 then .cons 4 .nil .nil else .nil

theorem inside_someManager :
    ∀ hWnd ∈ topLevelOf someManager 4 ++ messageOnlyOf someManager 4,
      Inside someManager (someManager.child hWnd) (someInside hWnd) ∧ (someInside hWnd).size < 3 := by
  have hwindows : topLevelOf someManager 4 ++ messageOnlyOf someManager 4 = [0, 3] := by decide
  rw [hwindows]
  refine List.forall_mem_cons.mpr ⟨⟨?_, by decide⟩, List.forall_mem_singleton.mpr ⟨?_, by decide⟩⟩
  · exact .cons .nil (.cons .nil .nil)
  · exact .cons .nil .nil

theorem enum_windows_someManager :
    ∃ windows, enum someManager 3 4 = some windows
      ∧ windows.map (·.handle) = (trees someInside
          (topLevelOf someManager 4 ++ messageOnlyOf someManager 4)).toList := by
  obtain ⟨windows, henum, hhandles, -⟩ := enum_windows inside_someManager
  exact ⟨windows, henum, hhandles⟩

end WinSys.Windows
