import Mathlib.Data.List.TakeWhile
import WinSys.Com.Writable

/-!
# Whether what the check says of a file is so

`Writable` looks at the file and one folder; what a user can do is a sequence of steps. The two are
compared along the path: `Says` and `Can` go down it from the drive's root.

* `says_iff_writable`: the check's answer, from the root down
* `Sure`: the rights on the way that the check gets right
* `writable_exact_iff`: the check is exact for a path if and only if it is sure
-/

namespace WinSys.Com

open Infra StandardUserCheck Texts

/-! ## what the check says -/

/-- The rights that are looked up for a file's folder; a drive's name alone is its current folder. -/
def folderMask (fs : FileSystem) : List WString → AccessMask
  | [drive] => fs.mask (fs.current drive)
  | folder => fs.mask folder

/-- What the check says, from a folder that is there on. -/
def Says (fs : FileSystem) : List WString → List WString → Prop
  | _, [] => False
  | folder, [name] =>
    match fs.object (folder ++ [name]) with
    | none => Grants (fs.mask folder) fileAddFile
    | some o => Replaceable (folderMask fs folder) o.granted
  | folder, name :: next :: rest =>
    match fs.object (folder ++ [name]) with
    | none => Grants (fs.mask folder) fileAddSubdirectory
    | some o =>
      if o.isFolder then Says fs (folder ++ [name]) (next :: rest)
      else Grants o.granted (creation rest.isEmpty)

/-- The path of a drive and names. -/
def textOf (drive : WChar) (names : List WString) : WString :=
  drive :: 0x3A :: names.flatMap (backslash :: ·)

def keyOf (drive : WChar) (names : List WString) : List WString :=
  lower [drive, 0x3A] :: names.map lower

section Texts

variable {fs : FileSystem} {drive : WChar} {names init : List WString} {name : WString}

theorem textOf_append (drive : WChar) (names more : List WString) :
    textOf drive (names ++ more) = textOf drive names ++ more.flatMap (backslash :: ·) := by
  rw [textOf, List.flatMap_append]
  rfl

/-- The last backslash is behind the folder. -/
theorem rfind_textOf (h : Plain name) :
    rfind backslash (textOf drive (init ++ [name])) = some (textOf drive init).length ∧
      (textOf drive (init ++ [name])).take (textOf drive init).length = textOf drive init := by
  rw [textOf_append, List.flatMap_singleton]
  exact ⟨rfind_append_cons h.2.2.2.1 _, List.take_left⟩

theorem splitOn_textOf (hdrive : Letter drive) (h : ∀ name ∈ names, Plain name) :
    (cstr (lower (textOf drive names))).splitOn backslash = keyOf drive names := by
  let path : FullPath := ⟨drive, names, hdrive, h⟩
  have hnul : 0 ∉ lower (textOf drive names) := by
    refine notMem_lower (by decide) fun hmem => ?_
    have hmem' : (0 : WChar) ∈ unlines backslash ([path.drive, 0x3A] :: path.names) := by
      rw [← path.text_unlines]
      exact List.mem_append_left _ hmem
    obtain ⟨line, hline, hzero⟩ := List.mem_flatMap.mp hmem'
    obtain hzero | hzero := List.mem_append.mp hzero
    · obtain rfl | hline := List.mem_cons.mp hline
      · exact path.notMem_drive (by decide) (by decide) hzero
      · exact (h line hline).2.2.2.2.2 hzero
    · exact absurd (List.mem_singleton.mp hzero) (by decide)
  have hcstr : cstr (lower (textOf drive names)) = lower (textOf drive names) :=
    List.takeWhile_eq_self_iff.mpr fun c hc => decide_eq_true (ne_of_mem_of_not_mem hc hnul)
  have hlines : unlines backslash ((lower (textOf drive names)).splitOn backslash)
      = unlines backslash path.key := by
    rw [unlines_splitOn]
    exact path.lower_text
  have hkey : path.key = keyOf drive names := rfl
  rw [hcstr, ← hkey, ← lines_unlines path.notMem_key, ← hlines,
    lines_unlines fun l hl => notMem_of_mem_splitOn hl]

theorem key_textOf (hdrive : Letter drive) (h : ∀ name ∈ names, Plain name) (hne : names ≠ []) :
    fs.key (textOf drive names) = keyOf drive names := by
  obtain ⟨name, names, rfl⟩ := List.exists_cons_of_ne_nil hne
  rw [FileSystem.key, splitOn_textOf hdrive h, keyOf, List.map_cons]
  refine List.filter_eq_self.mpr fun part hpart => decide_eq_true ?_
  obtain rfl | hpart := List.mem_cons.mp hpart
  · exact List.cons_ne_nil _ _
  · rw [← List.map_cons] at hpart
    obtain ⟨n, hn, rfl⟩ := List.mem_map.mp hpart
    exact fun hnil => (h n hn).1 (List.map_eq_nil_iff.mp hnil)

theorem key_drive (hdrive : Letter drive) :
    fs.key (textOf drive []) = fs.current (lower [drive, 0x3A]) := by
  rw [FileSystem.key, splitOn_textOf hdrive (List.forall_mem_nil _)]
  rfl

theorem key_root (hdrive : Letter drive) :
    fs.key (textOf drive [] ++ [backslash]) = [lower [drive, 0x3A]] := by
  have hnotMem : ∀ c : WChar, ¬Letter c → c ≠ 0x3A → c ∉ lower [drive, 0x3A] := by
    intro c hc hcolon
    refine notMem_lower hc fun hmem => ?_
    obtain rfl | h := List.mem_pair.mp hmem
    · exact hc hdrive
    · exact hcolon h
  have hlower : lower (textOf drive [] ++ [backslash]) = lower [drive, 0x3A] ++ backslash :: [] := by
    rw [lower_append, lower_backslash]
    rfl
  have hcstr : cstr (lower [drive, 0x3A] ++ backslash :: [])
      = lower [drive, 0x3A] ++ backslash :: [] := by
    refine List.takeWhile_eq_self_iff.mpr fun c hc => decide_eq_true ?_
    obtain hc | hc := List.mem_append.mp hc
    · exact ne_of_mem_of_not_mem hc (hnotMem 0 (by decide) (by decide))
    · rw [List.mem_singleton.mp hc]
      decide
  have hsplit : (lower [drive, 0x3A] ++ backslash :: []).splitOn backslash
      = [lower [drive, 0x3A], []] := by
    rw [List.splitOn_eq_splitOnP, List.splitOnP_append_cons_of_forall_mem]
    · rfl
    · intro c hc
      exact beq_false_of_ne (ne_of_mem_of_not_mem hc (hnotMem backslash (by decide) (by decide)))
    · rfl
  rw [FileSystem.key, hlower, hcstr, hsplit]
  rfl

/-- What is granted for a folder, once a drive's root has its backslash. -/
theorem granted_rooted (hdrive : Letter drive) (h : ∀ name ∈ names, Plain name) :
    fs.granted (rooted (textOf drive names)) = fs.mask (keyOf drive names) := by
  cases names with
  | nil =>
    have hlength : (textOf drive []).length = 2 := rfl
    rw [rooted, if_pos hlength, FileSystem.granted, key_root hdrive]
    rfl
  | cons name names =>
    have hlength : (textOf drive (name :: names)).length ≠ 2 := by
      simp [textOf]
    rw [rooted, if_neg hlength, FileSystem.granted, key_textOf hdrive h (List.cons_ne_nil _ _)]

/-- A folder is there by its text if it is by its key. -/
theorem attributes_textOf (hdrive : Letter drive) (h : ∀ name ∈ names, Plain name) :
    (fs.attributes (textOf drive names)).isSome = (fs.object (keyOf drive names)).isSome := by
  cases names with
  | nil =>
    rw [FileSystem.attributes, key_drive hdrive]
    exact fs.current_there _
  | cons name names =>
    rw [FileSystem.attributes, key_textOf hdrive h (List.cons_ne_nil _ _)]

theorem keyOf_append (drive : WChar) (names more : List WString) :
    keyOf drive (names ++ more) = keyOf drive names ++ more.map lower := by
  rw [keyOf, keyOf, List.map_append, List.cons_append]

/-! ## the climb -/

theorem nearest_there (hdrive : Letter drive) (h : ∀ name ∈ names, Plain name) {immediate : Bool}
    (hthere : (fs.object (keyOf drive names)).isSome) :
    fs.nearest (textOf drive names) immediate = some (textOf drive names, immediate) := by
  rw [FileSystem.nearest, if_pos ((attributes_textOf hdrive h).trans hthere)]

theorem nearest_up (hdrive : Letter drive) (h : ∀ n ∈ init ++ [name], Plain n) {immediate : Bool}
    (hnone : (fs.object (keyOf drive (init ++ [name]))).isSome = false) :
    fs.nearest (textOf drive (init ++ [name])) immediate = fs.nearest (textOf drive init) false := by
  have hname : Plain name := h name (List.mem_append_right _ List.mem_cons_self)
  obtain ⟨hfind, htake⟩ := @rfind_textOf drive init name hname
  have hlength : ¬(textOf drive init).length < 2 := by simp [textOf]
  have habsent : ¬(fs.attributes (textOf drive (init ++ [name]))).isSome := by
    rw [attributes_textOf hdrive h, hnone]
    decide
  rw [FileSystem.nearest, if_neg habsent]
  split
  · next hfind' => cases hfind.symm.trans hfind'
  · next up hup =>
    cases hfind.symm.trans hup
    rw [if_neg hlength, htake]

/-- From what isn't there the climb ends at the last folder that is. -/
theorem nearest_missing (hdrive : Letter drive) {more : List WString}
    (h : ∀ n ∈ init ++ name :: more, Plain n) {immediate : Bool}
    (hthere : (fs.object (keyOf drive init)).isSome)
    (hnone : fs.object (keyOf drive (init ++ [name])) = none) :
    fs.nearest (textOf drive (init ++ name :: more)) immediate = some (textOf drive init, false) := by
  have hinit : ∀ n ∈ init, Plain n := fun n hn => h n (List.mem_append_left _ hn)
  induction more using List.reverseRecOn generalizing immediate with
  | nil =>
    rw [nearest_up hdrive h (by rw [hnone]; rfl)]
    exact nearest_there hdrive hinit hthere
  | append_singleton more last ih =>
    have hsplit : init ++ name :: (more ++ [last]) = (init ++ name :: more) ++ [last] := by simp
    rw [hsplit] at h ⊢
    have hbelow : fs.object (keyOf drive ((init ++ name :: more) ++ [last])) = none := by
      have hkey : keyOf drive ((init ++ name :: more) ++ [last])
          = keyOf drive (init ++ [name]) ++ (more ++ [last]).map lower := by
        rw [← keyOf_append]
        simp
      rw [hkey]
      exact fs.closed.below (List.cons_ne_nil _ _) (by simp) (not_isFolder_of_none hnone)
    rw [nearest_up hdrive h (by rw [hbelow]; rfl)]
    exact ih (fun n hn => h n (List.mem_append_left _ hn))

/-- On a drive that isn't there the climb finds nothing. -/
theorem nearest_none (hdrive : Letter drive) (h : ∀ n ∈ names, Plain n) {immediate : Bool}
    (hnone : fs.object (keyOf drive []) = none) :
    fs.nearest (textOf drive names) immediate = none := by
  induction names using List.reverseRecOn generalizing immediate with
  | nil =>
    have habsent : ¬(fs.attributes (textOf drive [])).isSome := by
      rw [attributes_textOf hdrive h, hnone]
      decide
    have hfind : rfind backslash (textOf drive []) = none := by
      refine rfind_eq_none.mpr fun hmem => ?_
      obtain rfl | hmem := List.mem_pair.mp hmem
      · exact absurd hdrive (by decide)
      · exact absurd hmem (by decide)
    rw [FileSystem.nearest, if_neg habsent]
    split
    · rfl
    · next up hup => cases hfind.symm.trans hup
  | append_singleton names last ih =>
    have hbelow : fs.object (keyOf drive (names ++ [last])) = none := by
      have hkey : keyOf drive (names ++ [last]) = keyOf drive [] ++ (names ++ [last]).map lower := rfl
      rw [hkey]
      exact fs.closed.below (List.cons_ne_nil _ _) (by simp) (not_isFolder_of_none hnone)
    rw [nearest_up hdrive h (by rw [hbelow]; rfl)]
    exact ih fun n hn => h n (List.mem_append_left _ hn)

end Texts

/-! ## the answer from the root down -/

section Answer

variable {fs : FileSystem} {drive : WChar} {init rest : List WString} {last : WString}

/-- What the check says of a missing file. -/
def SaysMissing (fs : FileSystem) (folder : WString) : Prop :=
  ∃ up immediate, fs.nearest folder true = some (up, immediate) ∧
    Grants (fs.granted (rooted up)) (creation immediate)

theorem saysMissing_of_nearest {folder up : WString} {immediate : Bool}
    (h : fs.nearest folder true = some (up, immediate)) :
    SaysMissing fs folder ↔ Grants (fs.granted (rooted up)) (creation immediate) := by
  constructor
  · rintro ⟨up', immediate', h', hgrants⟩
    cases h.symm.trans h'
    exact hgrants
  · exact fun hgrants => ⟨up, immediate, h, hgrants⟩

theorem saysMissing_iff (hdrive : Letter drive) (h : ∀ n ∈ init ++ (rest ++ [last]), Plain n)
    (hthere : (fs.object (keyOf drive init)).isSome)
    (hnone : fs.object (keyOf drive (init ++ (rest ++ [last]))) = none) :
    SaysMissing fs (textOf drive (init ++ rest)) ↔
      Says fs (keyOf drive init) ((rest ++ [last]).map lower) := by
  have hinit : ∀ n ∈ init, Plain n := fun n hn => h n (List.mem_append_left _ hn)
  induction rest generalizing init with
  | nil =>
    rw [List.append_nil, saysMissing_of_nearest (nearest_there hdrive hinit hthere),
      granted_rooted hdrive hinit]
    rw [keyOf_append] at hnone
    rw [List.nil_append, List.map_singleton] at hnone ⊢
    rw [Says, hnone]
    rfl
  | cons name rest ih =>
    have hname : keyOf drive init ++ [lower name] = keyOf drive (init ++ [name]) := by
      rw [keyOf_append]
      rfl
    have hmap : ∃ next more, (rest ++ [last]).map lower = next :: more ∧ (more = [] ↔ rest = []) := by
      cases rest with
      | nil => exact ⟨lower last, [], rfl, Iff.rfl⟩
      | cons n rest => exact ⟨lower n, (rest ++ [last]).map lower, rfl, by simp⟩
    obtain ⟨next, more, hrest, hmore⟩ := hmap
    rw [List.cons_append, List.map_cons, hrest, Says, hname]
    cases hobject : fs.object (keyOf drive (init ++ [name])) with
    | none =>
      have hplain : ∀ n ∈ init ++ name :: rest, Plain n := fun n hn => h n (by
        rw [← List.append_assoc]
        exact List.mem_append_left _ hn)
      rw [saysMissing_of_nearest (nearest_missing hdrive hplain hthere hobject),
        granted_rooted hdrive hinit]
      rfl
    | some o =>
      have hassoc : init ++ name :: rest = init ++ [name] ++ rest := by simp
      have hplain : ∀ n ∈ init ++ [name] ++ (rest ++ [last]), Plain n := by
        rw [List.append_assoc]
        exact h
      have hnone' : fs.object (keyOf drive (init ++ [name] ++ (rest ++ [last]))) = none := by
        rw [List.append_assoc]
        exact hnone
      have hmask : fs.mask (keyOf drive (init ++ [name])) = o.granted := by
        rw [FileSystem.mask, hobject]
        rfl
      have hsome : (fs.object (keyOf drive (init ++ [name]))).isSome := by rw [hobject]; rfl
      have hfirst : ∀ n ∈ init ++ [name], Plain n := fun n hn => hplain n (List.mem_append_left _ hn)
      rw [hassoc]
      dsimp only
      split
      · rw [← hrest]
        exact ih hplain hsome hnone' hfirst
      · next hfile =>
        cases rest with
        | nil =>
          rw [List.append_nil, saysMissing_of_nearest (nearest_there hdrive hfirst hsome),
            granted_rooted hdrive hfirst, hmask, hmore.mpr rfl]
          rfl
        | cons n rest =>
          have hbelow : fs.object (keyOf drive (init ++ [name] ++ [n])) = none := by
            rw [keyOf_append]
            refine fs.closed.below (List.cons_ne_nil _ _) (List.cons_ne_nil _ _) ?_
            rintro ⟨o', ho', hfolder⟩
            cases hobject.symm.trans ho'
            exact hfile hfolder
          have hrest : ∀ x ∈ init ++ [name] ++ n :: rest, Plain x := fun x hx => hplain x (by
            rw [← List.append_assoc]
            exact List.mem_append_left _ hx)
          have hne : more.isEmpty = false :=
            List.isEmpty_eq_false_iff.mpr fun hnil => List.cons_ne_nil _ _ (hmore.mp hnil)
          rw [saysMissing_of_nearest (nearest_missing hdrive hrest hsome hbelow),
            granted_rooted hdrive hfirst, hmask, hne]

/-- For a file that is there, the check looks at it and at its folder. -/
theorem says_there {o : Object} (hthere : fs.object (keyOf drive (init ++ (rest ++ [last]))) = some o) :
    Says fs (keyOf drive init) ((rest ++ [last]).map lower) ↔
      Replaceable (folderMask fs (keyOf drive (init ++ rest))) o.granted := by
  induction rest generalizing init with
  | nil =>
    rw [keyOf_append] at hthere
    rw [List.append_nil]
    rw [List.nil_append, List.map_singleton] at hthere ⊢
    rw [Says, hthere]
  | cons name rest ih =>
    have hassoc : ∀ more : List WString, init ++ name :: more = init ++ [name] ++ more := by simp
    obtain ⟨next, more, hrest⟩ : ∃ next more, (rest ++ [last]).map lower = next :: more := by
      cases rest with
      | nil => exact ⟨lower last, [], rfl⟩
      | cons n rest => exact ⟨lower n, (rest ++ [last]).map lower, rfl⟩
    have hname : keyOf drive init ++ [lower name] = keyOf drive (init ++ [name]) := by
      rw [keyOf_append]
      rfl
    rw [List.cons_append, hassoc] at hthere
    obtain ⟨f, hf, hfolder⟩ : IsFolder fs.object (keyOf drive (init ++ [name])) := by
      rw [keyOf_append] at hthere
      have hsome : fs.object (keyOf drive (init ++ [name]) ++ (rest ++ [last]).map lower) ≠ none := by
        rw [hthere]
        exact nofun
      exact fs.closed.above (List.cons_ne_nil _ _) (by simp) hsome
    rw [List.cons_append, List.map_cons, hrest, Says, hname, hf, hassoc rest]
    dsimp only
    rw [if_pos hfolder, ← hrest]
    exact ih hthere

/-- The rights that the check looks up for a folder. -/
theorem granted_folder (hdrive : Letter drive) (h : ∀ n ∈ init, Plain n) :
    fs.granted (textOf drive init) = folderMask fs (keyOf drive init) := by
  cases init with
  | nil =>
    rw [FileSystem.granted, key_drive hdrive]
    rfl
  | cons name init =>
    rw [FileSystem.granted, key_textOf hdrive h (List.cons_ne_nil _ _)]
    rfl

/-- **What the check says of a path**, from the drive's root down. -/
theorem says_iff_writable {check : StandardUserCheck} (hsound : check.Sound fs)
    (hcontext : check.context = true) (hdrive : Letter drive)
    (h : ∀ n ∈ init ++ [last], Plain n) :
    (check.writable fs (textOf drive (init ++ [last]))).1 = true ↔
      (fs.object (keyOf drive [])).isSome = true ∧
        Says fs (keyOf drive []) ((init ++ [last]).map lower) := by
  have hinit : ∀ n ∈ init, Plain n := fun n hn => h n (List.mem_append_left _ hn)
  have hlast : Plain last := h last (List.mem_append_right _ List.mem_cons_self)
  obtain ⟨hfind, htake⟩ := @rfind_textOf drive init last hlast
  have hkey : fs.key (textOf drive (init ++ [last])) = keyOf drive (init ++ [last]) :=
    key_textOf hdrive h (by simp)
  have hlong : ¬((!check.context) = true ∨ (textOf drive (init ++ [last])).length < 3) := by
    rw [hcontext, textOf_append, List.flatMap_singleton, List.length_append, List.length_cons]
    have htwo : 2 ≤ (textOf drive init).length := by simp [textOf]
    simp
    omega
  rw [StandardUserCheck.writable, if_neg hlong, hfind]
  dsimp only
  rw [htake, FileSystem.attributes, hkey]
  cases hthere : fs.object (keyOf drive (init ++ [last])) with
  | some o =>
    have hroot : (fs.object (keyOf drive [])).isSome = true := by
      have hsome : fs.object (keyOf drive [] ++ (init ++ [last]).map lower) ≠ none := by
        rw [← keyOf_append, List.nil_append, hthere]
        exact nofun
      obtain ⟨f, hf, -⟩ := fs.closed.above (List.cons_ne_nil _ _) (by simp) hsome
      exact Option.isSome_iff_exists.mpr ⟨f, hf⟩
    have hfile : fs.granted (textOf drive (init ++ [last])) = o.granted := by
      rw [FileSystem.granted, hkey, FileSystem.mask, hthere]
      rfl
    have hanswer := @says_there fs drive [] init last o hthere
    obtain ⟨hdir, -, -⟩ := hsound.grantedFolder (textOf drive init)
    rw [granted_folder hdrive hinit] at hdir
    rw [hanswer, List.nil_append, hfile]
    dsimp only
    rw [hdir, Replaceable]
    by_cases hwrite : Grants o.granted (fileWriteData ||| (writeDac ||| writeOwner))
    · simp [hwrite, hroot]
    · simp [hwrite, hroot]
  | none =>
    dsimp only
    cases hroot : fs.object (keyOf drive []) with
    | none =>
      rw [nearest_none hdrive hinit hroot]
      simp
    | some root =>
      have hsome : (fs.object (keyOf drive [])).isSome := by rw [hroot]; rfl
      have hmissing := @saysMissing_iff fs drive [] init last hdrive h hsome hthere
      rw [List.nil_append] at hmissing
      rw [← hmissing]
      cases hnearest : fs.nearest (textOf drive init) true with
      | none => simp [SaysMissing, hnearest]
      | some found =>
        obtain ⟨up, immediate⟩ := found
        obtain ⟨hdir, -, -⟩ := hsound.grantedFolder (rooted up)
        rw [saysMissing_of_nearest hnearest, ← hdir]
        simp

end Answer

/-! ## where it is so -/

theorem grants_or (granted a b : AccessMask) :
    Grants granted (a ||| b) ↔ Grants granted a ∨ Grants granted b := by
  have hor : granted &&& (a ||| b) = granted &&& a ||| granted &&& b := by
    rw [← UInt32.toNat_inj, UInt32.toNat_and, UInt32.toNat_or, Nat.and_or_distrib_left,
      UInt32.toNat_or, UInt32.toNat_and, UInt32.toNat_and]
  rw [Grants, Grants, Grants, hor, ne_eq, UInt32.or_eq_zero_iff, not_and_or]

/-- Rights that a file's owner can have anyway don't tell whether it can be replaced. -/
theorem replaceable_iff (dir file : AccessMask) :
    Replaceable dir file ↔ Grants (effective file) fileWriteData ∨
      Grants dir fileAddFile ∧ (Grants (effective file) delete ∨ Grants dir fileDeleteChild) := by
  rw [Replaceable, grants_or]
  by_cases h : Grants file (writeDac ||| writeOwner)
  · rw [effective, if_pos h]
    exact iff_of_true (.inl (.inr h)) (.inl (by decide))
  · rw [effective, if_neg h, or_iff_left h]

/-- Whether a file can be deleted and created again. -/
def Recreates (dir file : AccessMask) : Prop :=
  Grants dir fileAddFile ∧ (Grants file delete ∨ Grants dir fileDeleteChild)

/-- For a file that is there: it can be written or taken itself, or its folder can't be taken, or
what that grants is enough anyway. In a drive's root it is the drive's current folder that is
asked. -/
def SureOfFile (fs : FileSystem) (folder : List WString) (file : AccessMask) : Prop :=
  Grants file (fileWriteData ||| (writeDac ||| writeOwner)) ∨
    match folder with
    | [drive] => Recreates (fs.mask (fs.current drive)) file ↔
        Recreates (effective (fs.mask [drive])) file
    | folder => ¬Grants (fs.mask folder) (writeDac ||| writeOwner) ∨
        Recreates (fs.mask folder) file

theorem recreates_effective {dir file : AccessMask} (h : Grants dir (writeDac ||| writeOwner)) :
    Recreates (effective dir) file := by
  rw [effective, if_pos h]
  exact ⟨by decide, .inr (by decide)⟩

/-- The rights that are asked for decide the same as those that the user can have. -/
theorem sureOfFile_iff (fs : FileSystem) (folder : List WString) (file : AccessMask) :
    SureOfFile fs folder file ↔ (Replaceable (folderMask fs folder) file ↔
      Replaceable (effective (fs.mask folder)) file) := by
  by_cases hfile : Grants file (fileWriteData ||| (writeDac ||| writeOwner))
  · exact iff_of_true (.inl hfile) (iff_of_true (.inl hfile) (.inl hfile))
  · have hreplaceable : ∀ dir, Replaceable dir file ↔ Recreates dir file :=
      fun dir => or_iff_right hfile
    rw [hreplaceable, hreplaceable]
    have hbelow : (¬Grants (fs.mask folder) (writeDac ||| writeOwner) ∨
        Recreates (fs.mask folder) file) ↔
          (Recreates (fs.mask folder) file ↔ Recreates (effective (fs.mask folder)) file) := by
      by_cases htake : Grants (fs.mask folder) (writeDac ||| writeOwner)
      · simp [htake, recreates_effective htake]
      · simp [htake, effective]
    -- a file in the drive's root, the second case, is asked for at the current folder
    rcases folder with _ | ⟨drive, _ | ⟨name, folder⟩⟩
    · exact (or_iff_right hfile).trans hbelow
    · exact or_iff_right hfile
    · exact (or_iff_right hfile).trans hbelow

/-- The rights that are asked for say what those that the user can have say: at each name, from a
folder that is there on. -/
def Sure (fs : FileSystem) : List WString → List WString → Prop
  | _, [] => True
  | folder, [name] =>
    match fs.object (folder ++ [name]) with
    | none => Grants (effective (fs.mask folder)) fileAddFile → Grants (fs.mask folder) fileAddFile
    | some o =>
      if o.isFolder then ¬Replaceable (folderMask fs folder) o.granted
      else SureOfFile fs folder o.granted
  | folder, name :: next :: rest =>
    match fs.object (folder ++ [name]) with
    | none =>
      Grants (effective (fs.mask folder)) fileAddSubdirectory →
        Grants (fs.mask folder) fileAddSubdirectory
    | some o =>
      if o.isFolder then Sure fs (folder ++ [name]) (next :: rest)
      else
        Grants o.granted (creation rest.isEmpty) ↔
          Grants (effective (fs.mask folder)) fileAddSubdirectory ∧
            (Grants (effective o.granted) delete ∨
              Grants (effective (fs.mask folder)) fileDeleteChild)

section Exact

variable {fs : FileSystem} {folder : List WString}

theorem says_iff_can_iff_sure {rest : List WString} (hfolder : IsFolder fs.object folder) :
    (Says fs folder rest ↔ Can fs.object folder rest) ↔ Sure fs folder rest := by
  induction rest generalizing folder with
  | nil => exact iff_of_true Iff.rfl trivial
  | cons name rest ih =>
    obtain ⟨f, hf, -⟩ := hfolder
    have hmask : fs.mask folder = f.granted := by
      rw [FileSystem.mask, hf]
      rfl
    have hhas : ∀ right, Has fs.object folder right ↔ Grants (effective f.granted) right :=
      fun right => has_iff hf
    have hwiden : ∀ right, Grants fileAllAccess right → Grants f.granted right →
        Grants (effective f.granted) right := fun right => grants_effective
    cases rest with
    | nil =>
      rw [Says, Can, Sure, hmask]
      cases hobject : fs.object (folder ++ [name]) with
      | none =>
        dsimp only
        rw [hhas]
        exact ⟨Iff.mpr, fun h => ⟨hwiden _ (by decide), h⟩⟩
      | some o =>
        dsimp only
        split
        · next ho => simp [ho]
        · next ho =>
          have hown := fs.not_own _ _ hobject
          rw [sureOfFile_iff, hmask, replaceable_iff (effective f.granted), hhas, hhas]
          simp [ho, hown]
    | cons next rest =>
      rw [Says, Can, Sure, hmask]
      cases hobject : fs.object (folder ++ [name]) with
      | none =>
        dsimp only
        rw [hhas]
        exact ⟨Iff.mpr, fun h => ⟨hwiden _ (by decide), h⟩⟩
      | some o =>
        dsimp only
        split
        · next ho => exact ih ⟨o, hobject, ho⟩
        · rw [hhas, hhas]

/-- Some steps of the user's put a file of theirs at the path. -/
def CanReplace (fs : FileSystem) (path : FullPath) : Prop :=
  ∃ t, Reach fs.object t ∧ Owned t path.key

/-- **The check is exact for a path if and only if it is sure**, whatever it was asked before. -/
theorem writable_exact_iff (fs : FileSystem) (earlier : List WString) (path : FullPath)
    (hnames : path.names ≠ []) :
    ((((asked fs earlier).writable fs path.text).1 = true) ↔ CanReplace fs path) ↔
      (IsFolder fs.object [lower [path.drive, 0x3A]] →
        Sure fs [lower [path.drive, 0x3A]] (path.names.map lower)) := by
  obtain ⟨drive, names, hletter, hplain⟩ := path
  obtain ⟨hsound, hcontext⟩ := @sound_asked fs earlier
  obtain ⟨init, last, rfl⟩ : ∃ init last, names = init ++ [last] :=
    ⟨names.dropLast, names.getLast hnames, (List.dropLast_append_getLast hnames).symm⟩
  have hanswer := says_iff_writable hsound hcontext hletter hplain
  have hkey : ([lower [drive, 0x3A]] : List WString) = keyOf drive [] := rfl
  have htarget : FullPath.key ⟨drive, init ++ [last], hletter, hplain⟩
      = keyOf drive [] ++ (init ++ [last]).map lower := rfl
  have htext : FullPath.text ⟨drive, init ++ [last], hletter, hplain⟩
      = textOf drive (init ++ [last]) := rfl
  rw [htext, hanswer, CanReplace, htarget, hkey]
  cases hroot : fs.object (keyOf drive []) with
  | none =>
    have hnot := not_owned_of_none fs.closed fs.nothing hroot ((init ++ [last]).map lower)
    refine iff_of_true (iff_of_false (fun h => absurd h.1 (by decide)) hnot) fun hfolder => ?_
    exact absurd hfolder (not_isFolder_of_none hroot)
  | some o =>
    have hfolder : IsFolder fs.object (keyOf drive []) := ⟨o, hroot, fs.root_folder _ o hroot⟩
    have hreach : (∃ t, Reach fs.object t ∧
        Owned t (keyOf drive [] ++ (init ++ [last]).map lower)) ↔
          Can fs.object (keyOf drive []) ((init ++ [last]).map lower) :=
      reach_owned_iff fs.closed (List.cons_ne_nil _ _) (by simp) hfolder
    rw [hreach, Option.isSome_some, and_iff_right rfl, says_iff_can_iff_sure hfolder]
    exact ⟨fun h _ => h, fun h => h hfolder⟩

end Exact

/-! ### small file systems -/

/-- Paths with their objects, in folders that are there too. -/
def Tidy (entries : List (List WString × Object)) : Prop :=
  ∀ e ∈ entries, e.1 ≠ [] ∧ e.2.own = false ∧
    if e.1.dropLast = [] then e.2.isFolder = true
    else (entries.lookup e.1.dropLast).any Object.isFolder = true

instance : DecidablePred Tidy := fun _ => inferInstanceAs (Decidable (∀ e ∈ _, _))

section Small

variable {entries : List (List WString × Object)} (h : Tidy entries)

theorem mem_of_lookup {path : List WString} {o : Object} (hlookup : entries.lookup path = some o) :
    (path, o) ∈ entries := by
  obtain ⟨before, after, rfl, -⟩ := List.lookup_eq_some_iff.mp hlookup
  simp

include h

theorem Tidy.closed : Closed fun path => entries.lookup path := by
  intro folder name hne hthere
  obtain ⟨o, ho⟩ := Option.ne_none_iff_exists'.mp hthere
  obtain ⟨-, -, hparent⟩ := h _ (mem_of_lookup ho)
  rw [List.dropLast_concat, if_neg hne, Option.any_eq_true] at hparent
  exact hparent

theorem Tidy.root {drive : WString} {o : Object} (ho : entries.lookup [drive] = some o) :
    o.isFolder = true := by
  obtain ⟨-, -, hparent⟩ := h _ (mem_of_lookup ho)
  exact hparent

theorem Tidy.nothing : entries.lookup [] = none := by
  by_contra hthere
  obtain ⟨o, ho⟩ := Option.ne_none_iff_exists'.mp hthere
  exact (h _ (mem_of_lookup ho)).1 rfl

end Small

/-- The file system of some entries; the current folders are the roots. -/
def smallSystem (entries : List (List WString × Object)) (h : Tidy entries) : FileSystem where
  object path := entries.lookup path
  current drive := [drive]
  closed := h.closed
  nothing := h.nothing
  current_there _ := rfl
  root_folder _ _ ho := h.root ho
  not_own _ _ ho := (h _ (mem_of_lookup ho)).2.1

/-! ### a folder whose DACL the user can change -/

def serverEntries : List (List WString × Object) := [
  ([wide "c:"], ⟨true, fileAddSubdirectory, false⟩),
  ([wide "c:", wide "app"], ⟨true, writeDac, false⟩),
  ([wide "c:", wide "app", wide "a.exe"], ⟨false, 0, false⟩)]

theorem serverEntries_tidy : Tidy serverEntries := by decide

def serverSystem : FileSystem := smallSystem serverEntries serverEntries_tidy

theorem server_plain : ∀ name ∈ [wide "App", wide "a.exe"], Plain name := by decide

theorem newServer_plain : ∀ name ∈ [wide "New", wide "b.exe"], Plain name := by decide

theorem drive_letter : Letter 0x43 := by decide

/-- `C:\App\a.exe` -/
def server : FullPath := ⟨0x43, [wide "App", wide "a.exe"], drive_letter, server_plain⟩

/-- `C:\New\b.exe` -/
def newServer : FullPath := ⟨0x43, [wide "New", wide "b.exe"], drive_letter, newServer_plain⟩

/-- The check sees that a folder can be made in the root. -/
theorem canReplace_newServer : CanReplace serverSystem newServer := by
  have hsure : Sure serverSystem [lower [newServer.drive, 0x3A]] (newServer.names.map lower) := by
    have hnone : serverSystem.object
        ([lower [newServer.drive, 0x3A]] ++ [lower (wide "New")]) = none := by decide
    change Sure serverSystem _ [lower (wide "New"), lower (wide "b.exe")]
    rw [Sure, hnone]
    decide
  obtain ⟨hsound, hcontext⟩ := @sound_asked serverSystem []
  have hwritable : ((asked serverSystem []).writable serverSystem newServer.text).1 = true := by
    refine (@says_iff_writable serverSystem 0x43 [wide "New"] (wide "b.exe") _ hsound hcontext
      drive_letter newServer_plain).mpr ⟨by decide, ?_⟩
    have hnone : serverSystem.object (keyOf 0x43 [] ++ [lower (wide "New")]) = none := by decide
    change Says serverSystem _ [lower (wide "New"), lower (wide "b.exe")]
    rw [Says, hnone]
    decide
  exact ((writable_exact_iff serverSystem [] newServer (by decide)).mpr fun _ => hsure).mp hwritable

/-- The user can change the DACL of the server's folder, which the check doesn't see. -/
theorem writable_server :
    ((asked serverSystem []).writable serverSystem server.text).1 = false ∧
      CanReplace serverSystem server := by
  have hfolder : serverSystem.object ([wide "c:"] ++ [wide "app"])
      = some ⟨true, writeDac, false⟩ := by decide
  have hfile : serverSystem.object ([wide "c:", wide "app"] ++ [wide "a.exe"])
      = some ⟨false, 0, false⟩ := by decide
  constructor
  · obtain ⟨hsound, hcontext⟩ := @sound_asked serverSystem []
    refine Bool.eq_false_iff.mpr fun hwritable => ?_
    obtain ⟨-, hanswer⟩ := (@says_iff_writable serverSystem 0x43 [wide "App"] (wide "a.exe") _ hsound
      hcontext drive_letter server_plain).mp hwritable
    have hnot : ¬Replaceable (folderMask serverSystem [wide "c:", wide "app"]) 0 := by decide
    change Says serverSystem [wide "c:"] [wide "app", wide "a.exe"] at hanswer
    rw [Says, hfolder] at hanswer
    change Says serverSystem [wide "c:", wide "app"] [wide "a.exe"] at hanswer
    rw [Says, hfile] at hanswer
    exact hnot hanswer
  · have hhas : ∀ right, Grants fileAllAccess right →
        Has serverSystem.object [wide "c:", wide "app"] right :=
      fun right hright => ⟨_, hfolder, hright⟩
    have hcan : Can serverSystem.object [wide "c:"] [wide "app", wide "a.exe"] := by
      rw [Can, hfolder]
      change Can serverSystem.object [wide "c:", wide "app"] [wide "a.exe"]
      rw [Can, hfile]
      exact ⟨rfl, .inr (.inr ⟨hhas _ (by decide), .inr (hhas _ (by decide))⟩)⟩
    have hroot : IsFolder serverSystem.object [wide "c:"] := ⟨_, rfl, rfl⟩
    exact reach_of_can serverSystem.closed (List.cons_ne_nil _ _) hroot hcan

end WinSys.Com
