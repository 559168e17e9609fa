import WinSys.FileIo.Tracker
import WinSys.Infra.Run

/-!
# Whose names the files have

The file system opens files at object addresses, which are used again, and its events arrive in
order, but some time later. The resolver queries what is open at an address by then.

* `Followed`: the tracker, its resolver, the events on their way and what is open where
* `ShownRight`: what the rows may be named; `OwnFile`
* `shown_names_own`
-/

namespace WinSys.FileIo

open Infra

/-! ## runs -/

/-- An event, with the key of the file that it opens if it is a `Create`. -/
structure Traced where
  record : FileRecord
  file : UInt64
deriving DecidableEq, Repr

/-- The file object and the name of a `Create`. -/
def Traced.created (e : Traced) : Option (UInt64 × WString) :=
  match e.record.event with
  | some (.create fileObject name) => some (fileObject, name)
  | _ => none

/-- The files open at the object addresses, after an event. -/
def opens (opened : UInt64 → Option UInt64) (e : Traced) : UInt64 → Option UInt64 :=
  match e.created with
  | some (fileObject, _) => Function.update opened fileObject (some e.file)
  | none => opened

inductive Act
  /-- The provider writes an event. -/
  | happen (e : Traced)
  /-- The oldest event on its way arrives. -/
  | deliver (time : ℤ) (tick : UInt64)
  | take
  | readHandles (handles : Option (List SystemHandleEntry)) (isFile : UInt16 → Bool)
  | ask (key : UInt64) (answer : WString)
  | store (tick : UInt64)
  | prune (tick : UInt64)
  | removeProcess (pid : UInt32)
  | setDosNames (devices : DosNames)

structure Followed where
  tracker : FileIoTracker := {}
  resolver : Resolver := .idle
  /-- The events on their way. -/
  coming : List Traced := []
  /-- The file open at an object address now. -/
  opened : UInt64 → Option UInt64
  /-- The file whose `Create` gave the object address the name it has. -/
  holder : UInt64 → Option UInt64 := fun _ => none
  /-- The last `Create` of the object address to arrive had no name. -/
  unnamed : UInt64 → Bool := fun _ => false
  /-- The file that was open at a key's object address when its name was queried. -/
  asked : UInt64 → Option UInt64 := fun _ => none

namespace Followed

variable (w : Followed)

/-- An event arrives. -/
def arrive (e : Traced) (time : ℤ) (tick : UInt64) : Followed :=
  let w := { w with tracker := w.tracker.onEvent e.record time tick }
  match e.created with
  | some (fileObject, name) =>
    if fileObject ≠ 0 ∧ name ≠ [] then
      { w with
        holder := Function.update w.holder fileObject (some e.file)
        unnamed := Function.update w.unnamed fileObject false }
    else { w with unnamed := Function.update w.unnamed fileObject true }
  | none => w

/-- The file whose name a query for a key asks for. -/
def askedFile (key : UInt64) : Option UInt64 := (w.resolver.target key).bind w.opened

def step : Act → Followed
  | .happen e => { w with coming := w.coming ++ [e], opened := opens w.opened e }
  | .deliver time tick =>
    match w.coming with
    | [] => w
    | e :: rest => { w with coming := rest }.arrive e time tick
  | .take =>
    match w.resolver with
    | .idle =>
      { w with resolver := (Resolver.take w.tracker).1, tracker := (Resolver.take w.tracker).2 }
    | _ => w
  | .readHandles handles isFile => { w with resolver := w.resolver.readHandles handles isFile }
  | .ask key answer =>
    { w with
      resolver := w.resolver.ask key answer
      asked := if (w.resolver.target key).isSome then
        Function.update w.asked key (w.askedFile key) else w.asked }
  | .store tick =>
    { w with
      resolver := (w.resolver.store w.tracker tick).1
      tracker := (w.resolver.store w.tracker tick).2 }
  | .prune tick => { w with tracker := w.tracker.prune tick }
  | .removeProcess pid => { w with tracker := w.tracker.removeProcess pid }
  | .setDosNames devices => { w with tracker := { w.tracker with dosNames := some devices } }

end Followed

section Laws

variable (names : UInt64 → Set WString) (w : Followed)

/-- An event names its file, and is of the file that is open at its object address. -/
def Truthful (opened : UInt64 → Option UInt64) (e : Traced) : Prop :=
  match e.record.event with
  | some (.nameCreate key name) => name ≠ [] → name ∈ names key
  | some (.create _ name) => name ≠ [] → name ∈ names e.file
  | some (.readWrite fileObject key _ _ _) => key ≠ 0 ∧ opened fileObject = some key
  | none => True

/-- The events are truthful, and so are the answers to the resolver, where they are not empty. -/
def Regular : Act → Prop
  | .happen e => Truthful names w.opened e
  | .ask key answer => answer ≠ [] → ∃ file ∈ w.askedFile key, answer ∈ names file
  | _ => True

/-- Every row is shown without a name, or with one of its own file. -/
def ShownRight : Prop :=
  ∀ c ∈ w.tracker.getFiles, c.name = [] ∨ ∃ name ∈ names c.fileKey, c.name = w.tracker.dosName name

/-- A file without a name is not read or written at an object address that kept the name of another
file over a `Create` without one. -/
def ReadsOwn (e : Traced) : Prop :=
  match e.record.event with
  | some (.readWrite fileObject key _ _ _) =>
    w.tracker.names.lookup key = none → w.tracker.objectNames.lookup fileObject ≠ none →
      w.unnamed fileObject = true → w.holder fileObject = some key
  | _ => True

/-- Nor is it answered for when another file was open at its address. -/
def OwnFile : Act → Prop
  | .deliver _ _ => ∀ e ∈ w.coming.head?, ReadsOwn w e
  | .store _ => w.resolver.done = true → ∀ a ∈ w.resolver.answers,
    w.tracker.names.lookup a.1 = none → w.asked a.1 = some a.1
  | _ => True

end Laws

/-! ## what the tracker learns -/

section Learning

variable {t : FileIoTracker} {e : Traced} {time : ℤ} {tick key key₁ fileObject : UInt64} {n : Name}

/-- A key's new name is one it had, or the one of the object address it is read or written at. -/
theorem nameKey_names (h : (t.nameKey fileObject key tick).names.lookup key₁ = some n) :
    (∃ m, t.names.lookup key₁ = some m ∧ n.text = m.text)
      ∨ key₁ = key ∧ t.names.lookup key = none
        ∧ ∃ m, t.objectNames.lookup fileObject = some m ∧ n.text = m.text := by
  unfold FileIoTracker.nameKey at h
  cases hname : t.names.lookup key with
  | some name =>
    simp only [hname, Finmap.lookup_insert_eq] at h
    left
    split at h
    · next hkey => exact ⟨name, hkey ▸ hname, (Option.some.inj h).symm ▸ rfl⟩
    · exact ⟨n, h, rfl⟩
  | none =>
    cases hobject : t.objectNames.lookup fileObject with
    | some name =>
      simp only [hname, hobject, Finmap.lookup_insert_eq] at h
      split at h
      · next hkey => exact Or.inr ⟨hkey, rfl, name, rfl, (Option.some.inj h).symm ▸ rfl⟩
      · exact Or.inl ⟨n, h, rfl⟩
    | none =>
      simp only [hname, hobject] at h
      left
      split at h
      · exact ⟨n, h, rfl⟩
      · exact ⟨n, h, rfl⟩

theorem nameKey_objectNames :
    (t.nameKey fileObject key tick).objectNames = t.objectNames := by
  unfold FileIoTracker.nameKey
  repeat' split
  all_goals rfl

theorem onReadWrite_objectNames {pid size : UInt32} {write : Bool} :
    (t.onReadWrite fileObject key pid size write time tick).objectNames = t.objectNames := by
  unfold FileIoTracker.onReadWrite
  split
  · rfl
  · exact nameKey_objectNames

theorem onReadWrite_names {pid size : UInt32} {write : Bool}
    (h : (t.onReadWrite fileObject key pid size write time tick).names.lookup key₁ = some n) :
    (∃ m, t.names.lookup key₁ = some m ∧ n.text = m.text)
      ∨ key₁ = key ∧ t.names.lookup key₁ = none
        ∧ ∃ m, t.objectNames.lookup fileObject = some m ∧ n.text = m.text := by
  unfold FileIoTracker.onReadWrite at h
  split at h
  · exact Or.inl ⟨n, h, rfl⟩
  · rcases nameKey_names h with hold | ⟨hkey, hnone, hobject⟩
    · exact Or.inl hold
    · exact Or.inr ⟨hkey, hkey ▸ hnone, hobject⟩

/-- A name that an event gives a key. -/
theorem onEvent_names (h : (t.onEvent e.record time tick).names.lookup key = some n) :
    (∃ m, t.names.lookup key = some m ∧ n.text = m.text)
      ∨ (e.record.event = some (.nameCreate key n.text) ∧ n.text ≠ [])
      ∨ ∃ o k pid size write, e.record.event = some (.readWrite o k pid size write)
        ∧ key = (if k ≠ 0 then k else o) ∧ t.names.lookup key = none
        ∧ ∃ m, t.objectNames.lookup o = some m ∧ n.text = m.text := by
  unfold FileIoTracker.onEvent at h
  cases hevent : e.record.event with
  | none =>
    rw [hevent] at h
    exact Or.inl ⟨n, h, rfl⟩
  | some event =>
    rw [hevent] at h
    cases event with
    | nameCreate k name =>
      simp only [FileIoTracker.onFileEvent, FileIoTracker.onNameCreate] at h
      split at h
      · next hgood =>
        rw [Finmap.lookup_insert_eq] at h
        split at h
        · next hkey =>
          obtain rfl := Option.some.inj h
          exact Or.inr (Or.inl ⟨by rw [hkey], hgood.2⟩)
        · exact Or.inl ⟨n, h, rfl⟩
      · exact Or.inl ⟨n, h, rfl⟩
    | create o name =>
      simp only [FileIoTracker.onFileEvent, FileIoTracker.onCreate] at h
      left
      split at h
      · exact ⟨n, h, rfl⟩
      · exact ⟨n, h, rfl⟩
    | readWrite o k pid size write =>
      rcases onReadWrite_names h with hold | ⟨hkey, hnone, hobject⟩
      · exact Or.inl hold
      · exact Or.inr (Or.inr ⟨o, k, pid, size, write, rfl, hkey, hnone, hobject⟩)

/-- A name that an event gives an object address. -/
theorem onEvent_objectNames (h : (t.onEvent e.record time tick).objectNames.lookup key = some n) :
    (t.objectNames.lookup key = some n ∧ ∀ name, e.created = some (key, name) →
        ¬ (key ≠ 0 ∧ name ≠ []))
      ∨ (e.created = some (key, n.text) ∧ key ≠ 0 ∧ n.text ≠ []) := by
  unfold FileIoTracker.onEvent at h
  unfold Traced.created
  cases hevent : e.record.event with
  | none =>
    rw [hevent] at h
    exact Or.inl ⟨h, by simp⟩
  | some event =>
    rw [hevent] at h
    cases event with
    | nameCreate k name =>
      simp only [FileIoTracker.onFileEvent, FileIoTracker.onNameCreate] at h
      left
      split at h
      · exact ⟨h, by simp⟩
      · exact ⟨h, by simp⟩
    | create o name =>
      simp only [FileIoTracker.onFileEvent, FileIoTracker.onCreate] at h
      split at h
      · next hgood =>
        rw [Finmap.lookup_insert_eq] at h
        split at h
        · next hkey =>
          obtain rfl := Option.some.inj h
          exact Or.inr ⟨by rw [hkey], hkey ▸ hgood⟩
        · next hkey =>
          refine Or.inl ⟨h, fun name' heq => ?_⟩
          exact absurd (congrArg Prod.fst (Option.some.inj heq)).symm hkey
      · next hbad =>
        refine Or.inl ⟨h, fun name' heq => ?_⟩
        obtain ⟨rfl, rfl⟩ := Prod.mk.inj (Option.some.inj heq)
        exact hbad
    | readWrite o k pid size write =>
      simp only [FileIoTracker.onFileEvent, onReadWrite_objectNames] at h
      exact Or.inl ⟨h, by simp⟩

/-- A stored answer is for a key without a name. -/
theorem foldl_insertNew_lookup {names : List (UInt64 × WString)} {m : Finmap fun _ : UInt64 => Name}
    (h : (names.foldl (fun m a => m.insertNew a.1 ⟨a.2, tick⟩) m).lookup key = some n) :
    m.lookup key = some n ∨ m.lookup key = none ∧ (key, n.text) ∈ names := by
  induction names generalizing m with
  | nil => exact Or.inl h
  | cons a rest ih =>
    have hinsert : (m.insertNew a.1 ⟨a.2, tick⟩).lookup key
        = if key = a.1 ∧ m.lookup key = none then some ⟨a.2, tick⟩ else m.lookup key := by
      by_cases hnone : m.lookup a.1 = none
      · rw [Finmap.lookup_insertNew_of_none hnone]
        by_cases hkey : key = a.1
        · rw [if_pos hkey, if_pos ⟨hkey, hkey ▸ hnone⟩]
        · rw [if_neg hkey, if_neg fun h => hkey h.1]
      · have hmem : a.1 ∈ m := by
          by_contra hnot
          exact hnone (Finmap.lookup_eq_none.mpr hnot)
        rw [Finmap.insertNew, if_pos hmem, if_neg]
        rintro ⟨rfl, hno⟩
        exact hnone hno
    rcases ih h with hsome | ⟨hnone, hrest⟩
    · rw [hinsert] at hsome
      split at hsome
      · next hnew =>
        obtain rfl := Option.some.inj hsome
        exact Or.inr ⟨hnew.2, hnew.1 ▸ List.mem_cons_self⟩
      · exact Or.inl hsome
    · rw [hinsert] at hnone
      split at hnone
      · cases hnone
      · exact Or.inr ⟨hnone, List.mem_cons_of_mem a hrest⟩

end Learning

/-! ## the invariant -/

/-- What is carried between acts: every name with the file it is of. `arrived` is what is open
where, as the events that have arrived say. -/
structure Held (names : UInt64 → Set WString) (arrived : UInt64 → Option UInt64) (w : Followed) :
    Prop where
  named : ∀ key n, w.tracker.names.lookup key = some n → n.text ∈ names key
  object : ∀ o n, w.tracker.objectNames.lookup o = some n →
    ∃ file ∈ w.holder o, n.text ∈ names file
  holder : ∀ o, w.unnamed o = false → ∀ file ∈ w.holder o, arrived o = some file
  zero : w.holder 0 = none
  coming : Along opens (Truthful names) arrived w.coming
  opened : run opens arrived w.coming = w.opened
  answers : ∀ a ∈ w.resolver.answers, ∃ file ∈ w.asked a.1, a.2 ∈ names file
  answered : ∀ a ∈ w.resolver.answers, w.resolver.toAsk.lookup a.1 = none

section Steps

variable {names : UInt64 → Set WString} {arrived : UInt64 → Option UInt64} {w : Followed} {a : Act}

theorem Held.start (opened : UInt64 → Option UInt64) : Held names opened { opened := opened } where
  named _ _ h := by simp at h
  object _ _ h := by simp at h
  holder _ _ _ h := by cases h
  zero := rfl
  coming := trivial
  opened := rfl
  answers _ h := by cases h
  answered _ h := by cases h

theorem Held.happen {e : Traced} (h : Held names arrived w) (hr : Regular names w (.happen e)) :
    Held names arrived (w.step (.happen e)) := by
  refine ⟨h.named, h.object, h.holder, h.zero, ?_, ?_, h.answers, h.answered⟩
  · show Along opens (Truthful names) arrived (w.coming ++ [e])
    rw [along_append, h.opened]
    exact ⟨h.coming, hr, trivial⟩
  · show run opens arrived (w.coming ++ [e]) = opens w.opened e
    rw [run_append, h.opened]
    rfl

@[simp]
theorem arrive_tracker (e : Traced) (time : ℤ) (tick : UInt64) :
    (w.arrive e time tick).tracker = w.tracker.onEvent e.record time tick := by
  unfold Followed.arrive
  repeat' split
  all_goals rfl

/-- What arriving leaves as it is. -/
theorem arrive_frame (e : Traced) (time : ℤ) (tick : UInt64) :
    (w.arrive e time tick).resolver = w.resolver ∧ (w.arrive e time tick).coming = w.coming
      ∧ (w.arrive e time tick).opened = w.opened ∧ (w.arrive e time tick).asked = w.asked := by
  unfold Followed.arrive
  repeat' split
  all_goals exact ⟨rfl, rfl, rfl, rfl⟩

theorem arrive_holder (e : Traced) (time : ℤ) (tick : UInt64) (o : UInt64) :
    (w.arrive e time tick).holder o
        = (match e.created with
          | some (fileObject, name) =>
            if o = fileObject ∧ fileObject ≠ 0 ∧ name ≠ [] then some e.file else w.holder o
          | none => w.holder o)
      ∧ (w.arrive e time tick).unnamed o
        = (match e.created with
          | some (fileObject, name) =>
            if o = fileObject then decide (¬ (fileObject ≠ 0 ∧ name ≠ [])) else w.unnamed o
          | none => w.unnamed o) := by
  unfold Followed.arrive
  cases hcreated : e.created with
  | none => exact ⟨rfl, rfl⟩
  | some c =>
    obtain ⟨fileObject, name⟩ := c
    by_cases hgood : fileObject ≠ 0 ∧ name ≠ []
    · simp [hgood, Function.update_apply]
    · simp [hgood, Function.update_apply]

/-- A name that an arriving event gives a key is its file's. -/
theorem Held.learn {e : Traced} {rest : List Traced} {time : ℤ} {tick key : UInt64} {n : Name}
    (h : Held names arrived w) (hcoming : w.coming = e :: rest)
    (hc : OwnFile w (.deliver time tick))
    (hn : (w.tracker.onEvent e.record time tick).names.lookup key = some n) :
    n.text ∈ names key := by
  have htrue : Truthful names arrived e := by
    have halong := h.coming
    rw [hcoming] at halong
    exact halong.1
  have hown := hc e (by rw [hcoming]; exact rfl)
  rcases onEvent_names hn with ⟨m, hm, htext⟩ | ⟨hevent, hne⟩
      | ⟨o, k, pid, size, write, hevent, hkey, hnone, m, hm, htext⟩
  · rw [htext]
    exact h.named key m hm
  · simp only [Truthful, hevent] at htrue
    exact htrue hne
  · simp only [Truthful, hevent] at htrue
    rw [if_pos htrue.1] at hkey
    subst hkey
    simp only [ReadsOwn, hevent] at hown
    obtain ⟨file, hfile, hnamed⟩ := h.object o m hm
    have hsame : some file = some key := by
      cases hunnamed : w.unnamed o with
      | false =>
        -- the address was named by the open that is read or written
        exact (h.holder o hunnamed file hfile).symm.trans htrue.2
      | true => exact hfile.symm.trans (hown hnone (by simp [hm]) hunnamed)
    rw [htext, ← Option.some.inj hsame]
    exact hnamed

theorem Held.deliver {time : ℤ} {tick : UInt64} {e : Traced} {rest : List Traced}
    (h : Held names arrived w) (hcoming : w.coming = e :: rest)
    (hc : OwnFile w (.deliver time tick)) :
    Held names (opens arrived e) ({ w with coming := rest }.arrive e time tick) := by
  obtain ⟨hresolver, hrest, hopened, hasked⟩ := @arrive_frame { w with coming := rest } e time tick
  have halong := h.coming
  rw [hcoming] at halong
  have hrun := h.opened
  rw [hcoming] at hrun
  refine ⟨fun key n hn => ?_, fun o n hn => ?_, fun o hunnamed file hfile => ?_, ?_, ?_, ?_, ?_, ?_⟩
  · rw [arrive_tracker] at hn
    exact h.learn hcoming hc hn
  · rw [arrive_tracker] at hn
    rw [(arrive_holder e time tick o).1]
    rcases onEvent_objectNames hn with ⟨hold, hnot⟩ | ⟨hcreated, hzero, hne⟩
    · cases hcreated : e.created with
      | none => exact h.object o n hold
      | some c =>
        have hno : ¬ (o = c.1 ∧ c.1 ≠ 0 ∧ c.2 ≠ []) := fun hgood =>
          hnot c.2 (by rw [hcreated, hgood.1]) ⟨hgood.1 ▸ hgood.2.1, hgood.2.2⟩
        simp only [if_neg hno]
        exact h.object o n hold
    · simp only [hcreated]
      refine ⟨e.file, by simp [hzero, hne], ?_⟩
      have htrue : Truthful names arrived e := halong.1
      have hevent : e.record.event = some (.create o n.text) := by
        unfold Traced.created at hcreated
        split at hcreated
        · next heq =>
          obtain ⟨rfl, rfl⟩ := Prod.mk.inj (Option.some.inj hcreated)
          exact heq
        · cases hcreated
      simp only [Truthful, hevent] at htrue
      exact htrue hne
  · rw [(arrive_holder e time tick o).2] at hunnamed
    rw [(arrive_holder e time tick o).1] at hfile
    unfold opens
    cases hcreated : e.created with
    | none =>
      simp only [hcreated] at hunnamed hfile ⊢
      exact h.holder o hunnamed file hfile
    | some c =>
      simp only [hcreated] at hunnamed hfile ⊢
      rw [Function.update_apply]
      by_cases ho : o = c.1
      · rw [if_pos ho] at hunnamed ⊢
        have hgood : c.1 ≠ 0 ∧ c.2 ≠ [] := by simpa using hunnamed
        rw [if_pos ⟨ho, hgood⟩] at hfile
        exact hfile
      · rw [if_neg ho] at hunnamed ⊢
        rw [if_neg fun hgood => ho hgood.1] at hfile
        exact h.holder o hunnamed file hfile
  · rw [(arrive_holder e time tick 0).1]
    cases hcreated : e.created with
    | none => exact h.zero
    | some c =>
      have hno : ¬ ((0 : UInt64) = c.1 ∧ c.1 ≠ 0 ∧ c.2 ≠ []) := fun hgood =>
        hgood.2.1 hgood.1.symm
      simp only [if_neg hno]
      exact h.zero
  · rw [hrest]
    exact halong.2
  · rw [hrest, hopened]
    exact hrun
  · rw [hresolver, hasked]
    exact h.answers
  · rw [hresolver]
    exact h.answered

theorem answers_take (t : FileIoTracker) : (Resolver.take t).1.answers = [] := by
  unfold Resolver.take
  split <;> rfl

theorem Held.take (h : Held names arrived w) : Held names arrived (w.step .take) := by
  cases hres : w.resolver with
  | idle =>
    simp only [Followed.step, hres]
    refine ⟨h.named, h.object, h.holder, h.zero, h.coming, h.opened, ?_, ?_⟩
    · simp [answers_take]
    · simp [answers_take]
  | taken pending =>
    simp only [Followed.step, hres]
    exact h
  | asking table pending found unnamed =>
    simp only [Followed.step, hres]
    exact h

theorem Held.readHandles {handles : Option (List SystemHandleEntry)} {isFile : UInt16 → Bool}
    (h : Held names arrived w) : Held names arrived (w.step (.readHandles handles isFile)) := by
  refine ⟨h.named, h.object, h.holder, h.zero, h.coming, h.opened, ?_, ?_⟩
  · show ∀ a ∈ (w.resolver.readHandles handles isFile).answers, _
    cases hres : w.resolver with
    | taken pending => cases handles <;> simp [Resolver.readHandles, Resolver.answers]
    | idle => simp [Resolver.readHandles, Resolver.answers]
    | asking table pending found unnamed =>
      intro a ha
      exact h.answers a (by rw [hres]; exact ha)
  · show ∀ a ∈ (w.resolver.readHandles handles isFile).answers,
      (w.resolver.readHandles handles isFile).toAsk.lookup a.1 = none
    cases hres : w.resolver with
    | taken pending => cases handles <;> simp [Resolver.readHandles, Resolver.answers]
    | idle => simp [Resolver.readHandles, Resolver.answers]
    | asking table pending found unnamed =>
      intro a ha
      have hold := h.answered a (by rw [hres]; exact ha)
      rw [hres] at hold
      exact hold

section Asking

variable {r : Resolver} {key key₁ : UInt64} {answer : WString}

/-- A new answer is to the key that is asked for. -/
theorem mem_answers_ask {a : UInt64 × WString} (h : a ∈ (r.ask key answer).answers) :
    a ∈ r.answers ∨ a = (key, answer) ∧ (r.target key).isSome ∧ answer ≠ [] := by
  cases r with
  | idle => exact Or.inl h
  | taken pending => exact Or.inl h
  | asking table pending found unnamed =>
    unfold Resolver.ask at h
    cases hkey : pending.lookup key with
    | none =>
      simp only [hkey] at h
      exact Or.inl h
    | some fileObject =>
      simp only [hkey] at h
      split at h
      · next hgood =>
        rcases List.mem_append.mp h with hfound | hnew
        · exact Or.inl hfound
        · exact Or.inr ⟨List.mem_singleton.mp hnew,
            by simp [Resolver.target, hkey, Option.filter_some, hgood.1], hgood.2⟩
      · exact Or.inl h

theorem target_eq_none (h : r.toAsk.lookup key = none) : r.target key = none := by
  cases r with
  | idle => rfl
  | taken pending => rfl
  | asking table pending found unnamed =>
    have hkey : pending.lookup key = none := h
    simp [Resolver.target, hkey]

theorem toAsk_ask_eq : (r.ask key answer).toAsk = r.toAsk.erase key := by
  have herase : ∀ m : Finmap fun _ : UInt64 => UInt64, m.lookup key = none → m = m.erase key := by
    intro m hnone
    refine Finmap.ext_lookup fun k => ?_
    rw [Finmap.lookup_erase_eq]
    split
    · next hk => rw [hk, hnone]
    · rfl
  cases r with
  | idle => exact herase ∅ rfl
  | taken pending => exact herase ∅ rfl
  | asking table pending found unnamed =>
    cases hkey : pending.lookup key with
    | none =>
      simp only [Resolver.ask, hkey]
      exact herase pending hkey
    | some fileObject =>
      simp only [Resolver.ask, hkey]
      split
      · rfl
      · rfl

end Asking

@[simp]
theorem step_ask_resolver (key : UInt64) (answer : WString) :
    (w.step (.ask key answer)).resolver = w.resolver.ask key answer := rfl

theorem step_ask_asked (key : UInt64) (answer : WString) (k : UInt64) :
    (w.step (.ask key answer)).asked k
      = if k = key ∧ (w.resolver.target key).isSome then w.askedFile key else w.asked k := by
  show (if (w.resolver.target key).isSome then _ else _ : UInt64 → Option UInt64) k = _
  by_cases hsome : (w.resolver.target key).isSome
  · simp [hsome, Function.update_apply]
  · simp [hsome]

theorem Held.ask {key : UInt64} {answer : WString} (h : Held names arrived w)
    (hr : Regular names w (.ask key answer)) : Held names arrived (w.step (.ask key answer)) := by
  cases hres : w.resolver with
  | idle =>
    refine ⟨h.named, h.object, h.holder, h.zero, h.coming, h.opened, ?_, ?_⟩
    · simp [Followed.step, hres, Resolver.ask, Resolver.answers]
    · simp [Followed.step, hres, Resolver.ask, Resolver.answers]
  | taken pending =>
    refine ⟨h.named, h.object, h.holder, h.zero, h.coming, h.opened, ?_, ?_⟩
    · simp [Followed.step, hres, Resolver.ask, Resolver.answers]
    · simp [Followed.step, hres, Resolver.ask, Resolver.answers]
  | asking table pending found unnamed =>
    have hanswers := h.answers
    have hanswered := h.answered
    rw [hres] at hanswers hanswered
    refine ⟨h.named, h.object, h.holder, h.zero, h.coming, h.opened, ?_, ?_⟩
    · intro a ha
      rw [step_ask_asked]
      rw [step_ask_resolver, hres] at ha
      rcases mem_answers_ask ha with hfound | ⟨rfl, htarget, hne⟩
      · -- a key is queried once
        rw [if_neg fun hkey => ?_]
        · exact hanswers a hfound
        · rw [hres] at hkey
          have hnone := target_eq_none (hanswered a hfound)
          rw [← hkey.1, hnone] at hkey
          cases hkey.2
      · rw [if_pos ⟨rfl, by rw [hres]; exact htarget⟩]
        exact hr hne
    · intro a ha
      rw [step_ask_resolver, hres] at ha ⊢
      rcases mem_answers_ask ha with hfound | ⟨rfl, htarget, -⟩
      · rw [toAsk_ask_eq, Finmap.lookup_erase_eq, hanswered a hfound, ite_self]
      · rw [toAsk_ask_eq, Finmap.lookup_erase]

theorem step_store_of_store_eq {tick : UInt64}
    (hs : w.resolver.store w.tracker tick = (w.resolver, w.tracker)) :
    w.step (.store tick) = w := by
  simp only [Followed.step, hs]

theorem Held.store {tick : UInt64} (h : Held names arrived w) (hc : OwnFile w (.store tick)) :
    Held names arrived (w.step (.store tick)) := by
  cases hres : w.resolver with
  | idle =>
    rw [step_store_of_store_eq (by rw [hres]; rfl)]
    exact h
  | taken pending =>
    rw [step_store_of_store_eq (by rw [hres]; rfl)]
    exact h
  | asking table pending found unnamed =>
    by_cases hdone : pending = ∅
    · simp only [Followed.step, hres, Resolver.store, if_pos hdone]
      refine ⟨fun key n hn => ?_, h.object, h.holder, h.zero, h.coming, h.opened, ?_, ?_⟩
      · rcases foldl_insertNew_lookup hn with hold | ⟨hnone, hfound⟩
        · exact h.named key n hold
        · have hown := hc (by rw [hres]; simp [Resolver.done, hdone]) (key, n.text)
            (by rw [hres]; exact hfound) hnone
          obtain ⟨file, hfile, hnamed⟩ := h.answers (key, n.text) (by rw [hres]; exact hfound)
          have hsame : file = key := Option.some.inj (hfile.symm.trans hown)
          exact hsame ▸ hnamed
      · simp [Resolver.answers]
      · simp [Resolver.answers]
    · rw [step_store_of_store_eq (by rw [hres]; simp [Resolver.store, hdone])]
      exact h

theorem Held.prune {tick : UInt64} (h : Held names arrived w) :
    Held names arrived (w.step (.prune tick)) where
  named key n hn := h.named key n (Finmap.of_lookup_eraseIf hn)
  object o n hn := h.object o n (Finmap.of_lookup_eraseIf hn)
  holder := h.holder
  zero := h.zero
  coming := h.coming
  opened := h.opened
  answers := h.answers
  answered := h.answered

/-- Each act keeps the invariant. -/
theorem Held.step (h : Held names arrived w) (hr : Regular names w a) (hc : OwnFile w a) :
    ∃ arrived', Held names arrived' (w.step a) := by
  cases a with
  | happen e => exact ⟨arrived, h.happen hr⟩
  | deliver time tick =>
    cases hcoming : w.coming with
    | nil =>
      simp only [Followed.step, hcoming]
      exact ⟨arrived, h⟩
    | cons e rest =>
      simp only [Followed.step, hcoming]
      exact ⟨opens arrived e, h.deliver hcoming hc⟩
  | take => exact ⟨arrived, h.take⟩
  | readHandles handles isFile => exact ⟨arrived, h.readHandles⟩
  | ask key answer => exact ⟨arrived, h.ask hr⟩
  | store tick => exact ⟨arrived, h.store hc⟩
  | prune tick => exact ⟨arrived, h.prune⟩
  | removeProcess pid =>
    exact ⟨arrived, h.named, h.object, h.holder, h.zero, h.coming, h.opened, h.answers, h.answered⟩
  | setDosNames devices =>
    exact ⟨arrived, h.named, h.object, h.holder, h.zero, h.coming, h.opened, h.answers, h.answered⟩

/-- What the tables name rightly is shown rightly. -/
theorem Held.shownRight (h : Held names arrived w) : ShownRight names w := by
  intro c hc
  obtain ⟨⟨id, file⟩, -, rfl⟩ := Multiset.mem_map.mp hc
  show w.tracker.shownName id.key = [] ∨ ∃ name ∈ names id.key, w.tracker.shownName id.key = _
  unfold FileIoTracker.shownName
  cases hname : w.tracker.names.lookup id.key with
  | none => exact Or.inl rfl
  | some n => exact Or.inr ⟨n.text, h.named id.key n hname, rfl⟩

end Steps

/-! ## every run -/

/--
**No file is shown with another file's name**, in every run in which no file without a name is read
or written at an object address that kept another file's name over a `Create` without one, and none
gets an answer when another file was open at its address.
-/
theorem shown_names_own (names : UInt64 → Set WString) (opened : UInt64 → Option UInt64)
    (acts : List Act) (hr : Along Followed.step (Regular names) { opened := opened } acts)
    (hc : Along Followed.step OwnFile { opened := opened } acts) :
    Along Followed.step (fun w a => ShownRight names (w.step a)) { opened := opened } acts := by
  refine Along.mono_of_invariant (fun w => ∃ arrived, Held names arrived w) ?_ ?_
    ⟨opened, Held.start opened⟩ (hr.and hc)
  · rintro w a ⟨arrived, h⟩ ⟨hr, hc⟩
    exact h.step hr hc
  · rintro w a ⟨arrived, h⟩ ⟨hr, hc⟩
    obtain ⟨arrived', h'⟩ := h.step hr hc
    exact h'.shownRight

section Runs

instance (names : UInt64 → Set WString) [∀ key, DecidablePred (· ∈ names key)]
    (opened : UInt64 → Option UInt64) (e : Traced) : Decidable (Truthful names opened e) := by
  unfold Truthful
  exact match e.record.event with
    | some (.nameCreate _ _) => inferInstanceAs (Decidable (_ → _))
    | some (.create _ _) => inferInstanceAs (Decidable (_ → _))
    | some (.readWrite _ _ _ _ _) => inferInstanceAs (Decidable (_ ∧ _))
    | none => .isTrue trivial

instance (names : UInt64 → Set WString) [∀ key, DecidablePred (· ∈ names key)] (w : Followed) :
    ∀ a : Act, Decidable (Regular names w a)
  | .happen e => inferInstanceAs (Decidable (Truthful names w.opened e))
  | .ask _ _ => inferInstanceAs (Decidable (_ → _))
  | .deliver _ _ | .take | .readHandles _ _ | .store _ | .prune _ | .removeProcess _
  | .setDosNames _ => .isTrue trivial

instance (w : Followed) (e : Traced) : Decidable (ReadsOwn w e) := by
  unfold ReadsOwn
  exact match e.record.event with
    | some (.readWrite _ _ _ _ _) => inferInstanceAs (Decidable (_ → _))
    | some (.create _ _) | some (.nameCreate _ _) | none => .isTrue trivial

instance (w : Followed) : ∀ a : Act, Decidable (OwnFile w a)
  | .deliver _ _ => inferInstanceAs (Decidable (∀ e ∈ w.coming.head?, ReadsOwn w e))
  | .store _ => inferInstanceAs (Decidable (_ → _))
  | .happen _ | .take | .readHandles _ _ | .ask _ _ | .prune _ | .removeProcess _
  | .setDosNames _ => .isTrue trivial

/-- `Irp`, `FileObject`, `IssuingThreadId` and three more fields, then the name, from a 32-bit
kernel. -/
def createOf (fileObject : UInt8) (file : UInt64) (name : Bytes) : Traced where
  record :=
    { id := create
      is32Bit := true
      userData := [0, 0, 0, 0, fileObject] ++ List.replicate 19 0 ++ name }
  file := file

/-- `ByteOffset`, `Irp`, `FileObject`, `FileKey`, `IssuingThreadId` and `IOSize`. -/
def readOf (fileObject key : UInt8) : Traced where
  record :=
    { id := read
      is32Bit := true
      processId := 4
      userData := List.replicate 12 0 ++ [fileObject, 0, 0, 0, key, 0, 0, 0]
        ++ [0, 0, 0, 0, 9, 0, 0, 0] }
  file := 0

/-- File 1 is `a`, file 2 `b`, and no other has a name. -/
def twoFiles (key : UInt64) : Set WString :=
  {name | (key = 1 ∧ name = wide "a") ∨ (key = 2 ∧ name = wide "b")}

instance (key : UInt64) : DecidablePred (· ∈ twoFiles key) := fun _ =>
  inferInstanceAs (Decidable (_ ∨ _))

/-- File 1 is opened at 16, with its name; then file 2 is, and read. -/
def reopened (name : Bytes) : List Act :=
  [.happen (createOf 16 1 [0x61, 0]), .happen (createOf 16 2 name), .happen (readOf 16 2),
    .deliver 1 1, .deliver 2 2, .deliver 3 3]

theorem shown_names_own_reopened :
    Along Followed.step (fun w a => ShownRight twoFiles (w.step a)) { opened := fun _ => none }
      (reopened [0x62, 0]) :=
  shown_names_own twoFiles (fun _ => none) (reopened [0x62, 0]) (by decide) (by decide)

/-- The name of file 1 stays at the address over the open of file 2 that has no name, and file 2 is
shown with it. -/
theorem empty_create_keeps_name :
    ¬ ∀ (names : UInt64 → Set WString) (opened : UInt64 → Option UInt64) (acts : List Act),
      Along Followed.step (Regular names) { opened := opened } acts →
        Along Followed.step (fun w a => ShownRight names (w.step a)) { opened := opened } acts := by
  intro hall
  obtain ⟨-, -, -, -, -, hshown, -⟩ :=
    hall twoFiles (fun _ => none) (reopened []) (by decide)
  have hrow := hshown ⟨4, 2, wide "a", 9, 0, 1, 0, 3, 3⟩ (by decide)
  rcases hrow with hempty | ⟨name, hname, hshown⟩
  · revert hempty
    decide
  · rcases hname with ⟨hkey, -⟩ | ⟨-, rfl⟩
    · revert hkey
      decide
    · revert hshown
      decide

end Runs

end WinSys.FileIo
