import Mathlib.Data.UInt
import Mathlib.Logic.Function.Basic
import Mathlib.Logic.Relation

/-!
# What a user can do to a file tree

Folders and files have rights granted to the user, who may change what they are: write a file,
give themselves every right where the DACL or the owner is theirs to change, delete a file, create
files and folders.

* `Step`: what the user can do at once
* `Can`: whether a file of the user's can come to be at a path, from the rights on the way
* `reach_owned_iff`: it can exactly if some steps put it there
-/

namespace WinSys.Com

/-! ## rights -/

abbrev AccessMask := UInt32

def fileWriteData : AccessMask := 0x2

def fileAddFile : AccessMask := 0x2

def fileAddSubdirectory : AccessMask := 0x4

def fileDeleteChild : AccessMask := 0x40

def delete : AccessMask := 0x10000

def writeDac : AccessMask := 0x40000

def writeOwner : AccessMask := 0x80000

def fileAllAccess : AccessMask := 0x1F01FF

def Grants (granted rights : AccessMask) : Prop := granted &&& rights ≠ 0

instance (granted rights : AccessMask) : Decidable (Grants granted rights) :=
  inferInstanceAs (Decidable (_ ≠ _))

/-- The rights that the user can have; all, if they can change the DACL or the owner. -/
def effective (granted : AccessMask) : AccessMask :=
  if Grants granted (writeDac ||| writeOwner) then fileAllAccess else granted

theorem effective_all : effective fileAllAccess = fileAllAccess := by decide

/-! ## trees -/

/-- A file or a folder. -/
structure Object where
  isFolder : Bool
  granted : AccessMask
  /-- the file's content is the user's -/
  own : Bool := false
deriving DecidableEq, Repr

/-- The objects at paths, which are names from the drive on. -/
abbrev Tree (α : Type) := List α → Option Object

variable {α : Type} [DecidableEq α]

def IsFolder (t : Tree α) (path : List α) : Prop := ∃ o, t path = some o ∧ o.isFolder = true

/-- What is in something is in a folder. -/
def Closed (t : Tree α) : Prop :=
  ∀ folder name, folder ≠ [] → t (folder ++ [name]) ≠ none → IsFolder t folder

/-- The user's file is there. -/
def Owned (t : Tree α) (path : List α) : Prop :=
  ∃ o, t path = some o ∧ o.isFolder = false ∧ o.own = true

/-- What the user can do at once. -/
inductive Step (t : Tree α) : Tree α → Prop
  | write {path : List α} {o : Object} (hthere : t path = some o) (hfile : o.isFolder = false)
      (hright : Grants o.granted fileWriteData) :
      Step t (Function.update t path (some { o with own := true }))
  | take {path : List α} {o : Object} (hthere : t path = some o)
      (hright : Grants o.granted (writeDac ||| writeOwner)) :
      Step t (Function.update t path (some { o with granted := fileAllAccess }))
  | delete {folder : List α} {name : α} {f o : Object} (hthere : t (folder ++ [name]) = some o)
      (hfile : o.isFolder = false) (hfolder : t folder = some f)
      (hright : Grants o.granted delete ∨ Grants f.granted fileDeleteChild) :
      Step t (Function.update t (folder ++ [name]) none)
  | createFile {folder : List α} {name : α} {f : Object} (hnone : t (folder ++ [name]) = none)
      (hfolder : t folder = some f) (hisFolder : f.isFolder = true)
      (hright : Grants f.granted fileAddFile) :
      Step t (Function.update t (folder ++ [name]) (some ⟨false, fileAllAccess, true⟩))
  | createFolder {folder : List α} {name : α} {f : Object} (hnone : t (folder ++ [name]) = none)
      (hfolder : t folder = some f) (hisFolder : f.isFolder = true)
      (hright : Grants f.granted fileAddSubdirectory) :
      Step t (Function.update t (folder ++ [name]) (some ⟨true, fileAllAccess, false⟩))

abbrev Reach : Tree α → Tree α → Prop := Relation.ReflTransGen Step

/-- The user can have a right. -/
def Has (t : Tree α) (path : List α) (right : AccessMask) : Prop :=
  ∃ o, t path = some o ∧ Grants (effective o.granted) right

/-- From a folder that is there on: the user's file can come to be at the end of the names. -/
def Can (t : Tree α) : List α → List α → Prop
  | _, [] => False
  | folder, [name] =>
    match t (folder ++ [name]) with
    | none => Has t folder fileAddFile
    | some o => o.isFolder = false ∧ (o.own = true ∨ Grants (effective o.granted) fileWriteData ∨
        Has t folder fileAddFile ∧
          (Grants (effective o.granted) delete ∨ Has t folder fileDeleteChild))
  | folder, name :: next :: rest =>
    match t (folder ++ [name]) with
    | none => Has t folder fileAddSubdirectory
    | some o =>
      if o.isFolder then Can t (folder ++ [name]) (next :: rest)
      else Has t folder fileAddSubdirectory ∧
        (Grants (effective o.granted) delete ∨ Has t folder fileDeleteChild)

/-! ## what a step changes -/

section Steps

variable {t t' : Tree α} {path folder : List α}

/-- What a step does to what is at a name in a folder. -/
inductive Change (t : Tree α) (folder : List α) : Option Object → Option Object → Prop
  | absent : Change t folder none none
  | changed {o o' : Object} (hisFolder : o'.isFolder = o.isFolder)
      (hgranted : effective o'.granted = effective o.granted)
      (hown : o'.own = true → o.own = true ∨ Grants (effective o.granted) fileWriteData) :
      Change t folder (some o) (some o')
  | deleted {o : Object} (hfile : o.isFolder = false)
      (hright : Grants (effective o.granted) delete ∨ Has t folder fileDeleteChild) :
      Change t folder (some o) none
  | createdFile {o : Object} (hfile : o.isFolder = false) (hfolder : IsFolder t folder)
      (hright : Has t folder fileAddFile) : Change t folder none (some o)
  | createdFolder {o : Object} (hisFolder : o.isFolder = true) (hfolder : IsFolder t folder)
      (hright : Has t folder fileAddSubdirectory) : Change t folder none (some o)

omit [DecidableEq α] in
theorem Change.refl (o? : Option Object) : Change t folder o? o? := by
  cases o? with
  | none => exact .absent
  | some o => exact .changed rfl rfl .inl

theorem grants_effective {granted right : AccessMask} (hall : Grants fileAllAccess right)
    (h : Grants granted right) : Grants (effective granted) right := by
  unfold effective
  split
  · exact hall
  · exact h

omit [DecidableEq α] in
theorem has_of_grants {f : Object} {right : AccessMask} (hall : Grants fileAllAccess right)
    (hfolder : t folder = some f) (h : Grants f.granted right) : Has t folder right :=
  ⟨f, hfolder, grants_effective hall h⟩

theorem effective_take {granted : AccessMask} (h : Grants granted (writeDac ||| writeOwner)) :
    effective fileAllAccess = effective granted := by
  rw [effective_all, effective, if_pos h]

/-- **What a step does**, at each name. -/
theorem Step.change (h : Step t t') (folder : List α) (name : α) :
    Change t folder (t (folder ++ [name])) (t' (folder ++ [name])) := by
  cases h with
  | @write path o hthere hfile hright =>
    by_cases hpath : folder ++ [name] = path
    · rw [hpath, hthere, Function.update_self]
      exact .changed rfl rfl fun _ => .inr (grants_effective (by decide) hright)
    · rw [Function.update_of_ne hpath]
      exact .refl _
  | @take path o hthere hright =>
    by_cases hpath : folder ++ [name] = path
    · rw [hpath, hthere, Function.update_self]
      exact .changed rfl (effective_take hright) .inl
    · rw [Function.update_of_ne hpath]
      exact .refl _
  | @delete folder' name' f o hthere hfile hfolder hright =>
    by_cases hpath : folder ++ [name] = folder' ++ [name']
    · obtain ⟨rfl, -⟩ := List.append_inj' hpath rfl
      rw [hpath, hthere, Function.update_self]
      refine .deleted hfile (hright.imp ?_ ?_)
      · exact grants_effective (by decide)
      · exact has_of_grants (by decide) hfolder
    · rw [Function.update_of_ne hpath]
      exact .refl _
  | @createFile folder' name' f hnone hfolder hisFolder hright =>
    by_cases hpath : folder ++ [name] = folder' ++ [name']
    · obtain ⟨rfl, -⟩ := List.append_inj' hpath rfl
      rw [hpath, hnone, Function.update_self]
      exact .createdFile rfl ⟨f, hfolder, hisFolder⟩ (has_of_grants (by decide) hfolder hright)
    · rw [Function.update_of_ne hpath]
      exact .refl _
  | @createFolder folder' name' f hnone hfolder hisFolder hright =>
    by_cases hpath : folder ++ [name] = folder' ++ [name']
    · obtain ⟨rfl, -⟩ := List.append_inj' hpath rfl
      rw [hpath, hnone, Function.update_self]
      exact .createdFolder rfl ⟨f, hfolder, hisFolder⟩ (has_of_grants (by decide) hfolder hright)
    · rw [Function.update_of_ne hpath]
      exact .refl _

/-- **A folder stays**, with the rights that the user can have. -/
theorem Step.keeps (h : Step t t') {o : Object} (hthere : t folder = some o)
    (hfolder : o.isFolder = true) :
    ∃ o', t' folder = some o' ∧ o'.isFolder = true ∧ effective o'.granted = effective o.granted := by
  have hsame : ∀ {path : List α} {o? : Option Object}, folder ≠ path →
      ∃ o', Function.update t path o? folder = some o' ∧ o'.isFolder = true ∧
        effective o'.granted = effective o.granted := fun hne =>
    ⟨o, (Function.update_of_ne hne _ _).trans hthere, hfolder, rfl⟩
  cases h with
  | @write path o' hthere' hfile hright =>
    refine hsame fun heq => ?_
    rw [heq, hthere', Option.some_inj] at hthere
    rw [← hthere, hfile] at hfolder
    exact absurd hfolder nofun
  | @take path o' hthere' hright =>
    by_cases heq : folder = path
    · subst heq
      cases hthere'.symm.trans hthere
      exact ⟨{ o with granted := fileAllAccess }, Function.update_self .., hfolder,
        effective_take hright⟩
    · exact hsame heq
  | delete hthere' hfile _ _ =>
    refine hsame fun heq => ?_
    rw [heq, hthere', Option.some_inj] at hthere
    rw [← hthere, hfile] at hfolder
    exact absurd hfolder nofun
  | createFile hnone _ _ _ =>
    refine hsame fun heq => ?_
    rw [heq, hnone] at hthere
    exact absurd hthere nofun
  | createFolder hnone _ _ _ =>
    refine hsame fun heq => ?_
    rw [heq, hnone] at hthere
    exact absurd hthere nofun

theorem Step.isFolder (h : Step t t') (hfolder : IsFolder t folder) : IsFolder t' folder := by
  obtain ⟨o, hthere, ho⟩ := hfolder
  obtain ⟨o', hthere', ho', -⟩ := h.keeps hthere ho
  exact ⟨o', hthere', ho'⟩

/-- No step gives the user a right that they couldn't have before. -/
theorem Step.has (h : Step t t') (hfolder : IsFolder t folder) {right : AccessMask}
    (hright : Has t' folder right) : Has t folder right := by
  obtain ⟨o, hthere, ho⟩ := hfolder
  obtain ⟨o', hthere', -, heffective⟩ := h.keeps hthere ho
  obtain ⟨o'', hthere'', hgrants⟩ := hright
  cases hthere'.symm.trans hthere''
  exact ⟨o, hthere, heffective ▸ hgrants⟩

/-- **What can be after a step could be before it.** -/
theorem can_of_step (h : Step t t') {rest : List α} (hfolder : IsFolder t folder)
    (hcan : Can t' folder rest) : Can t folder rest := by
  induction rest generalizing folder with
  | nil => exact hcan
  | cons name rest ih =>
    have hchange := h.change folder name
    cases rest with
    | nil =>
      rw [Can] at hcan ⊢
      generalize t (folder ++ [name]) = before at hchange ⊢
      generalize t' (folder ++ [name]) = after at hchange hcan
      cases hchange with
      | absent => exact h.has hfolder hcan
      | @changed o o' hisFolder hgranted hown =>
        obtain ⟨hfile, hcan⟩ := hcan
        refine ⟨hisFolder ▸ hfile, ?_⟩
        rw [hgranted] at hcan
        obtain hown' | hwrite | ⟨hadd, hdelete⟩ := hcan
        · exact (hown hown').imp_right .inl
        · exact .inr (.inl hwrite)
        · exact .inr (.inr ⟨h.has hfolder hadd, hdelete.imp_right (h.has hfolder)⟩)
      | deleted hfile hright => exact ⟨hfile, .inr (.inr ⟨h.has hfolder hcan, hright⟩)⟩
      | createdFile _ _ hright => exact hright
      | createdFolder hisFolder _ _ => exact absurd (hisFolder.symm.trans hcan.1) nofun
    | cons next rest =>
      rw [Can] at hcan ⊢
      generalize hbefore : t (folder ++ [name]) = before at hchange ⊢
      generalize t' (folder ++ [name]) = after at hchange hcan
      cases hchange with
      | absent => exact h.has hfolder hcan
      | @changed o o' hisFolder hgranted _ =>
        dsimp only at hcan ⊢
        rw [hisFolder, hgranted] at hcan
        split at hcan
        · next ho =>
          rw [if_pos ho]
          exact ih ⟨o, hbefore, ho⟩ hcan
        · next ho =>
          rw [if_neg ho]
          exact ⟨h.has hfolder hcan.1, hcan.2.imp_right (h.has hfolder)⟩
      | @deleted o hfile hright =>
        dsimp only
        rw [if_neg (by simp [hfile])]
        exact ⟨h.has hfolder hcan, hright⟩
      | @createdFile o hfile _ _ =>
        dsimp only at hcan
        rw [if_neg (by simp [hfile])] at hcan
        exact h.has hfolder hcan.1
      | createdFolder _ _ hright => exact hright

theorem can_of_reach (h : Reach t t') {rest : List α} (hfolder : IsFolder t folder)
    (hcan : Can t' folder rest) : Can t folder rest := by
  induction h using Relation.ReflTransGen.head_induction_on with
  | refl => exact hcan
  | head hstep _ ih => exact can_of_step hstep hfolder (ih (hstep.isFolder hfolder))

theorem Reach.isFolder (h : Reach t t') (hfolder : IsFolder t folder) : IsFolder t' folder := by
  induction h with
  | refl => exact hfolder
  | tail _ hstep ih => exact hstep.isFolder ih

/-- A step keeps what is in something in a folder. -/
theorem Step.closed (h : Step t t') (hclosed : Closed t) : Closed t' := by
  intro folder name hne hthere
  have hfolder : t (folder ++ [name]) ≠ none → IsFolder t' folder := fun hbefore =>
    h.isFolder (hclosed folder name hne hbefore)
  have hchange := h.change folder name
  generalize hbefore : t (folder ++ [name]) = before at hchange hfolder
  generalize t' (folder ++ [name]) = after at hchange hthere
  cases hchange with
  | absent => exact absurd rfl hthere
  | deleted => exact absurd rfl hthere
  | changed => exact hfolder nofun
  | createdFile _ hparent _ => exact h.isFolder hparent
  | createdFolder _ hparent _ => exact h.isFolder hparent

theorem Reach.closed (h : Reach t t') (hclosed : Closed t) : Closed t' := by
  induction h with
  | refl => exact hclosed
  | tail _ hstep ih => exact hstep.closed ih

omit [DecidableEq α] in
/-- What has something below it is a folder. -/
theorem Closed.above (h : Closed t) {rest : List α} (hne : folder ≠ []) (hrest : rest ≠ [])
    (hthere : t (folder ++ rest) ≠ none) : IsFolder t folder := by
  induction rest using List.reverseRecOn with
  | nil => exact absurd rfl hrest
  | append_singleton rest name ih =>
    rw [← List.append_assoc] at hthere
    have hlast := h (folder ++ rest) name (by simp [hne]) hthere
    by_cases hnil : rest = []
    · rwa [hnil, List.append_nil] at hlast
    · obtain ⟨o, ho, -⟩ := hlast
      exact ih hnil (by rw [ho]; exact nofun)

omit [DecidableEq α] in
/-- Nothing is below what isn't a folder. -/
theorem Closed.below (h : Closed t) {rest : List α} (hne : folder ≠ []) (hrest : rest ≠ [])
    (hfolder : ¬IsFolder t folder) : t (folder ++ rest) = none := by
  by_contra hthere
  exact hfolder (h.above hne hrest hthere)

omit [DecidableEq α] in
theorem can_of_owned (h : Closed t) {rest : List α} (hne : folder ≠ []) (hrest : rest ≠ [])
    (howned : Owned t (folder ++ rest)) : Can t folder rest := by
  induction rest generalizing folder with
  | nil => exact absurd rfl hrest
  | cons name rest ih =>
    have hsplit : folder ++ name :: rest = folder ++ [name] ++ rest := by simp
    obtain ⟨o, hthere, hfile, hown⟩ := howned
    cases rest with
    | nil =>
      rw [Can, hthere]
      exact ⟨hfile, .inl hown⟩
    | cons next rest =>
      rw [hsplit] at hthere
      have hsome : t (folder ++ [name] ++ next :: rest) ≠ none := by
        rw [hthere]
        exact nofun
      obtain ⟨f, hf, hfolder⟩ := h.above (by simp) (List.cons_ne_nil next rest) hsome
      rw [Can, hf]
      dsimp only
      rw [if_pos hfolder]
      exact ih (by simp) nofun ⟨o, hthere, hfile, hown⟩

omit [DecidableEq α] in
theorem not_isFolder_of_none (h : t path = none) : ¬IsFolder t path := by
  rintro ⟨o, ho, -⟩
  exact absurd (h.symm.trans ho) nofun

/-! ## the steps to take -/

/-- The user takes the rights that they can have. -/
theorem reach_effective {path : List α} {o : Object} (hthere : t path = some o) :
    ∃ t', Reach t t' ∧ t' path = some { o with granted := effective o.granted } ∧
      ∀ other, other ≠ path → t' other = t other := by
  by_cases h : Grants o.granted (writeDac ||| writeOwner)
  · refine ⟨_, .single (.take hthere h), ?_, fun other hne => Function.update_of_ne hne _ _⟩
    rw [Function.update_self, effective, if_pos h]
  · refine ⟨t, .refl, ?_, fun _ _ => rfl⟩
    rw [effective, if_neg h]
    exact hthere

/-- In a folder of the user's with nothing in it, a file can be put anywhere. -/
theorem reach_new {rest : List α} (hrest : rest ≠ []) {f : Object} (hthere : t folder = some f)
    (hfolder : f.isFolder = true) (hall : f.granted = fileAllAccess)
    (hbelow : ∀ more, more ≠ [] → t (folder ++ more) = none) :
    ∃ t', Reach t t' ∧ Owned t' (folder ++ rest) := by
  induction rest generalizing t folder f with
  | nil => exact absurd rfl hrest
  | cons name rest ih =>
    have hnone := hbelow [name] nofun
    cases rest with
    | nil =>
      refine ⟨_, .single (.createFile hnone hthere hfolder ?_), ?_⟩
      · rw [hall]
        decide
      · exact ⟨_, Function.update_self .., rfl, rfl⟩
    | cons next rest =>
      have hstep : Step t (Function.update t (folder ++ [name])
          (some ⟨true, fileAllAccess, false⟩)) := by
        refine .createFolder hnone hthere hfolder ?_
        rw [hall]
        decide
      have hempty : ∀ more, more ≠ [] → Function.update t (folder ++ [name])
          (some ⟨true, fileAllAccess, false⟩) (folder ++ [name] ++ more) = none := by
        intro more hmore
        rw [Function.update_of_ne (by simpa using hmore), List.append_assoc]
        exact hbelow _ (by simp)
      obtain ⟨t', hreach, howned⟩ := ih nofun (Function.update_self ..) rfl rfl hempty
      refine ⟨t', .head hstep hreach, ?_⟩
      rwa [List.append_assoc] at howned

omit [DecidableEq α] in
theorem has_iff {o : Object} {right : AccessMask} (hthere : t path = some o) :
    Has t path right ↔ Grants (effective o.granted) right := by
  constructor
  · rintro ⟨o', hthere', h⟩
    cases hthere.symm.trans hthere'
    exact h
  · exact fun h => ⟨o, hthere, h⟩

/-- A file that can be deleted is replaced by what can be made in its folder. -/
theorem reach_deleted {name : α} {f o : Object} (hfolder : t folder = some f)
    (hthere : t (folder ++ [name]) = some o) (hfile : o.isFolder = false)
    (hdelete : Grants (effective o.granted) delete ∨ Grants (effective f.granted) fileDeleteChild) :
    ∃ t', Reach t t' ∧ t' folder = some { f with granted := effective f.granted } ∧
      t' (folder ++ [name]) = none ∧
      ∀ other, other ≠ folder → other ≠ folder ++ [name] → t' other = t other := by
  have hne : folder ++ [name] ≠ folder := by simp
  obtain ⟨t₁, hreach₁, hfolder₁, hsame₁⟩ := reach_effective hfolder
  obtain ⟨t₂, hreach₂, hthere₂, hsame₂⟩ := reach_effective ((hsame₁ _ hne).trans hthere)
  have hfolder₂ := (hsame₂ folder hne.symm).trans hfolder₁
  refine ⟨_, (hreach₁.trans hreach₂).tail (.delete hthere₂ hfile hfolder₂ hdelete), ?_,
    Function.update_self .., ?_⟩
  · rw [Function.update_of_ne hne.symm]
    exact hfolder₂
  · intro other hother hother'
    rw [Function.update_of_ne hother', hsame₂ other hother', hsame₁ other hother]

/-- **The user's file can be put where it can come to be.** -/
theorem reach_of_can (hclosed : Closed t) {rest : List α} (hne : folder ≠ [])
    (hfolder : IsFolder t folder) (hcan : Can t folder rest) :
    ∃ t', Reach t t' ∧ Owned t' (folder ++ rest) := by
  induction rest generalizing folder with
  | nil => exact absurd hcan id
  | cons name rest ih =>
    obtain ⟨f, hf, hisFolder⟩ := hfolder
    have hnename : folder ++ [name] ≠ folder := by simp
    cases rest with
    | nil =>
      rw [Can] at hcan
      cases hthere : t (folder ++ [name]) with
      | none =>
        rw [hthere] at hcan
        obtain ⟨t₁, hreach₁, hf₁, hsame₁⟩ := reach_effective hf
        have hnone := (hsame₁ _ hnename).trans hthere
        refine ⟨_, hreach₁.tail (.createFile hnone hf₁ hisFolder ((has_iff hf).mp hcan)), ?_⟩
        exact ⟨_, Function.update_self .., rfl, rfl⟩
      | some o =>
        rw [hthere] at hcan
        obtain ⟨hfile, hown | hwrite | ⟨hadd, hdelete⟩⟩ := hcan
        · exact ⟨t, .refl, o, hthere, hfile, hown⟩
        · obtain ⟨t₁, hreach₁, hthere₁, -⟩ := reach_effective hthere
          refine ⟨_, hreach₁.tail (.write hthere₁ hfile hwrite), ?_⟩
          exact ⟨_, Function.update_self .., hfile, rfl⟩
        · obtain ⟨t₁, hreach₁, hf₁, hnone, -⟩ :=
            reach_deleted hf hthere hfile (hdelete.imp_right (has_iff hf).mp)
          refine ⟨_, hreach₁.tail (.createFile hnone hf₁ hisFolder ((has_iff hf).mp hadd)), ?_⟩
          exact ⟨_, Function.update_self .., rfl, rfl⟩
    | cons next rest =>
      have hsplit : folder ++ name :: next :: rest = folder ++ [name] ++ next :: rest := by simp
      rw [Can] at hcan
      rw [hsplit]
      -- what is new is the user's, and nothing is in it
      have hnew : ∀ t₁ : Tree α, Reach t t₁ →
          t₁ folder = some { f with granted := effective f.granted } →
          t₁ (folder ++ [name]) = none →
          (∀ more, more ≠ [] → t₁ (folder ++ [name] ++ more) = none) →
          Has t folder fileAddSubdirectory →
          ∃ t', Reach t t' ∧ Owned t' (folder ++ [name] ++ next :: rest) := by
        intro t₁ hreach₁ hf₁ hnone hbelow hadd
        have hstep := Step.createFolder hnone hf₁ hisFolder ((has_iff hf).mp hadd)
        obtain ⟨t', hreach', howned⟩ := reach_new (f := ⟨true, fileAllAccess, false⟩)
          (List.cons_ne_nil next rest)
          (Function.update_self ..) rfl rfl fun more hmore => by
            rw [Function.update_of_ne (by simpa using hmore)]
            exact hbelow more hmore
        exact ⟨t', (hreach₁.tail hstep).trans hreach', howned⟩
      cases hthere : t (folder ++ [name]) with
      | none =>
        rw [hthere] at hcan
        obtain ⟨t₁, hreach₁, hf₁, hsame₁⟩ := reach_effective hf
        refine hnew t₁ hreach₁ hf₁ ((hsame₁ _ hnename).trans hthere) ?_ hcan
        intro more hmore
        rw [hsame₁ _ (by simp)]
        exact hclosed.below (by simp) hmore (not_isFolder_of_none hthere)
      | some o =>
        rw [hthere] at hcan
        dsimp only at hcan
        split at hcan
        · next ho => exact ih (by simp) ⟨o, hthere, ho⟩ hcan
        · next ho =>
          have hfile : o.isFolder = false := by simpa using ho
          obtain ⟨t₁, hreach₁, hf₁, hnone, hsame₁⟩ :=
            reach_deleted hf hthere hfile (hcan.2.imp_right (has_iff hf).mp)
          refine hnew t₁ hreach₁ hf₁ hnone ?_ hcan.1
          intro more hmore
          rw [hsame₁ _ (by simp) (by simpa using hmore)]
          refine hclosed.below (by simp) hmore ?_
          rintro ⟨o', ho', hfolder'⟩
          cases hthere.symm.trans ho'
          exact ho hfolder'

/-- **The user's file can come to be at a path exactly if some steps put it there.** -/
theorem reach_owned_iff (hclosed : Closed t) {rest : List α} (hne : folder ≠ []) (hrest : rest ≠ [])
    (hfolder : IsFolder t folder) :
    (∃ t', Reach t t' ∧ Owned t' (folder ++ rest)) ↔ Can t folder rest := by
  constructor
  · rintro ⟨t', hreach, howned⟩
    exact can_of_reach hreach hfolder (can_of_owned (hreach.closed hclosed) hne hrest howned)
  · exact reach_of_can hclosed hne hfolder

omit [DecidableEq α] in
theorem Change.of_none {o? : Option Object} (h : Change t folder none o?)
    (hfolder : ¬IsFolder t folder) : o? = none := by
  cases h with
  | absent => rfl
  | createdFile _ hparent _ => exact absurd hparent hfolder
  | createdFolder _ hparent _ => exact absurd hparent hfolder

theorem Step.nothing (h : Step t t') {drive : α} (hempty : t [] = none)
    (hdrive : ∀ rest, t (drive :: rest) = none) :
    t' [] = none ∧ ∀ rest, t' (drive :: rest) = none := by
  constructor
  · have hsame : ∀ {path : List α} {o? : Option Object}, path ≠ [] →
        Function.update t path o? [] = none := fun hne =>
      (Function.update_of_ne hne.symm _ _).trans hempty
    cases h with
    | write hthere _ _ =>
      refine hsame ?_
      rintro rfl
      exact absurd (hempty.symm.trans hthere) nofun
    | take hthere _ =>
      refine hsame ?_
      rintro rfl
      exact absurd (hempty.symm.trans hthere) nofun
    | delete => exact hsame (by simp)
    | createFile => exact hsame (by simp)
    | createFolder => exact hsame (by simp)
  · intro rest
    induction rest using List.reverseRecOn with
    | nil =>
      have hchange := h.change [] drive
      rw [List.nil_append, hdrive] at hchange
      exact hchange.of_none (not_isFolder_of_none hempty)
    | append_singleton rest name _ =>
      have hchange := h.change (drive :: rest) name
      rw [List.cons_append, hdrive] at hchange
      exact hchange.of_none (not_isFolder_of_none (hdrive rest))

/-- Nothing comes to be on a drive that isn't there. -/
theorem not_owned_of_none {drive : α} (hclosed : Closed t) (hempty : t [] = none)
    (hdrive : t [drive] = none) (rest : List α) : ¬∃ t', Reach t t' ∧ Owned t' (drive :: rest) := by
  rintro ⟨t', hreach, o, hthere, -⟩
  have hnothing : t' [] = none ∧ ∀ rest, t' (drive :: rest) = none := by
    clear hthere
    induction hreach with
    | refl =>
      refine ⟨hempty, fun rest => ?_⟩
      cases rest with
      | nil => exact hdrive
      | cons name rest =>
        exact hclosed.below (List.cons_ne_nil drive []) (List.cons_ne_nil name rest)
          (not_isFolder_of_none hdrive)
    | tail _ hstep ih => exact hstep.nothing ih.1 ih.2
  exact absurd ((hnothing.2 rest).symm.trans hthere) nofun

end Steps

end WinSys.Com
