import WinSys.Registry.Table

/-!
# What the table's operations leave alone

The fields each function does not touch, as simp lemmas, so that later proofs need not unfold it.
Rows and the history of counts change by `Count` only: `Holds` packs that into one rule, for any
fact about them that counting one operation keeps.
-/

namespace WinSys.Registry

open Infra

/-- Whether an open names its key object is for its caller to allow. -/
theorem RegistryEvent.names_iff {e : RegistryEvent} {name : WString} {b : Bool} :
    e.names name b = true ↔ b = true ∧ e.names name true = true := by
  cases b with
  | false => simp [RegistryEvent.names]
  | true => simp

namespace RegistryIoTable

/-- The name of a key object or token. -/
def text (t : RegistryIoTable) (k : UInt64) : Option WString := (t.names.lookup k).map Name.text

variable {env : Env} {t : RegistryIoTable} {e : RegistryEvent} {name : WString} {pid : UInt32}
  {time : ℤ} {tick : UInt64} {b : Bool}

/-! ## count -/

@[simp] theorem count_deferred :
    (t.count env e name pid time tick b).deferred = t.deferred := rfl
@[simp] theorem count_waiting : (t.count env e name pid time tick b).waiting = t.waiting := rfl
@[simp] theorem count_unnamed : (t.count env e name pid time tick b).unnamed = t.unnamed := rfl
@[simp] theorem count_attempts :
    (t.count env e name pid time tick b).attempts = t.attempts := rfl
@[simp] theorem count_pendingOpens :
    (t.count env e name pid time tick b).pendingOpens = t.pendingOpens := rfl
@[simp] theorem count_nextToken :
    (t.count env e name pid time tick b).nextToken = t.nextToken := rfl
@[simp] theorem count_taken : (t.count env e name pid time tick b).taken = t.taken := rfl
@[simp] theorem count_counted : (t.count env e name pid time tick b).counted
    = ⟨e, name, pid, time, tick⟩ :: t.counted := rfl
@[simp] theorem count_rows : (t.count env e name pid time tick b).rows
    = t.rows.insert (env.rowId e name pid) (t.countedRow env e name pid time tick) := rfl
theorem count_names : (t.count env e name pid time tick b).names
    = if e.names name b then
        (t.noteBase env e name tick).insert e.keyObject ⟨name, tick, [tick]⟩
      else t.noteBase env e name tick := rfl

/-- A use of a name by a relative open changes what is noted of it only. -/
theorem noteBase_lookup (k : UInt64) :
    ((t.noteBase env e name tick).lookup k = t.names.lookup k) ∨
      ∃ n, t.names.lookup k = some n ∧ t.usesBase env e name = true ∧
        (t.noteBase env e name tick).lookup k = some { n with noted := tick :: n.noted } := by
  unfold noteBase
  split
  · next n hn =>
    split
    · next huses =>
      rw [Finmap.lookup_insert_eq]
      by_cases hk : k = e.baseObject
      · rw [if_pos hk]
        exact Or.inr ⟨n, hk ▸ hn, huses, rfl⟩
      · rw [if_neg hk]
        exact Or.inl rfl
    · exact Or.inl rfl
  · exact Or.inl rfl

theorem noteBase_text (k : UInt64) :
    ((t.noteBase env e name tick).lookup k).map Name.text = t.text k := by
  rw [text]
  rcases @noteBase_lookup env t e name tick k with h | ⟨n, hn, -, h⟩
  · rw [h]
  · rw [h, hn]
    rfl

theorem mem_noteBase {k : UInt64} : k ∈ t.noteBase env e name tick ↔ k ∈ t.names := by
  have htext := @noteBase_text env t e name tick k
  rw [text] at htext
  rw [← Finmap.lookup_isSome, ← Finmap.lookup_isSome, ← Option.isSome_map (f := Name.text), htext,
    Option.isSome_map]

theorem noteBase_of_operation (h : e.isOpen = false) : t.noteBase env e name tick = t.names := by
  unfold noteBase usesBase
  rw [h]
  split <;> rfl

/-- A count names its key object at most. -/
theorem count_text {k : UInt64} : (t.count env e name pid time tick b).text k
    = if e.names name b = true ∧ k = e.keyObject then some name else t.text k := by
  rw [text, count_names]
  by_cases hn : e.names name b = true
  · rw [if_pos hn, Finmap.lookup_insert_eq]
    by_cases hk : k = e.keyObject
    · simp [hk, hn]
    · rw [if_neg hk, if_neg fun h => hk h.2, noteBase_text]
  · rw [if_neg hn, if_neg fun h => hn h.1, noteBase_text]

/-- Only an open names its key object. -/
theorem count_names_of_operation (h : e.isOpen = false) :
    (t.count env e name pid time tick b).names = t.names := by
  simp [count_names, RegistryEvent.names, h, noteBase_of_operation h]

/-! ## nameToken -/

variable {d : Deferred}

@[simp] theorem nameToken_deferred : (t.nameToken d name tick).deferred = t.deferred := by
  unfold nameToken; split <;> rfl
@[simp] theorem nameToken_waiting : (t.nameToken d name tick).waiting = t.waiting := by
  unfold nameToken; split <;> rfl
@[simp] theorem nameToken_unnamed : (t.nameToken d name tick).unnamed = t.unnamed := by
  unfold nameToken; split <;> rfl
@[simp] theorem nameToken_attempts : (t.nameToken d name tick).attempts = t.attempts := by
  unfold nameToken; split <;> rfl
@[simp] theorem nameToken_nextToken : (t.nameToken d name tick).nextToken = t.nextToken := by
  unfold nameToken; split <;> rfl
@[simp] theorem nameToken_taken : (t.nameToken d name tick).taken = t.taken := by
  unfold nameToken; split <;> rfl
@[simp] theorem nameToken_rows : (t.nameToken d name tick).rows = t.rows := by
  unfold nameToken; split <;> rfl
@[simp] theorem nameToken_counted : (t.nameToken d name tick).counted = t.counted := by
  unfold nameToken; split <;> rfl
theorem nameToken_names : (t.nameToken d name tick).names
    = if d.token = 0 then t.names else t.names.insert d.token ⟨name, tick, [tick]⟩ := by
  unfold nameToken; split <;> rfl
theorem nameToken_pendingOpens : (t.nameToken d name tick).pendingOpens
    = if d.token ≠ 0 ∧ t.pendingOpens.lookup d.event.keyObject = some d.token
      then t.pendingOpens.erase d.event.keyObject else t.pendingOpens := by
  unfold nameToken
  split
  · next h => simp [h]
  · next h => simp [h]

/-! ## retarget -/

variable {object : UInt64} {stamp : ℤ} {token : UInt64}

@[simp] theorem retarget_names : (t.retarget object stamp token).names = t.names := by
  unfold retarget; split <;> rfl
@[simp] theorem retarget_unnamed : (t.retarget object stamp token).unnamed = t.unnamed := by
  unfold retarget; split <;> rfl
@[simp] theorem retarget_attempts : (t.retarget object stamp token).attempts = t.attempts := by
  unfold retarget; split <;> rfl
@[simp] theorem retarget_pendingOpens :
    (t.retarget object stamp token).pendingOpens = t.pendingOpens := by
  unfold retarget; split <;> rfl
@[simp] theorem retarget_nextToken :
    (t.retarget object stamp token).nextToken = t.nextToken := by
  unfold retarget; split <;> rfl
@[simp] theorem retarget_taken : (t.retarget object stamp token).taken = t.taken := by
  unfold retarget; split <;> rfl
@[simp] theorem retarget_rows : (t.retarget object stamp token).rows = t.rows := by
  unfold retarget; split <;> rfl
@[simp] theorem retarget_counted : (t.retarget object stamp token).counted = t.counted := by
  unfold retarget; split <;> rfl

/-! ## the two sweeps -/

/-- The invariant rule of `FlushWaiting`'s loop. -/
theorem flushSweep_invariant {P : RegistryIoTable → List Deferred → Prop} {object : UInt64}
    {stamp : ℤ}
    (hstart : P { t with attempts := t.attempts.insert object ⟨maxAttempts, .closed⟩ } t.deferred)
    (hflush : ∀ s kept d rest, P s (kept ++ d :: rest) → d.waiting = object →
      d.event.stamp < stamp → P (s.flushOne env object d) (kept ++ rest)) :
    P (t.flushSweep env object stamp).1 (t.flushSweep env object stamp).2 := by
  refine sweep_invariant_all (fun s kept d rest hs hf => ?_) hstart
  simp only [flushes, Bool.and_eq_true, decide_eq_true_eq] at hf
  exact hflush s kept d rest hs hf.1 hf.2

/-- What `FlushWaiting` keeps is in order. -/
theorem flushSweep_sublist (object : UInt64) (stamp : ℤ) :
    (t.flushSweep env object stamp).2.Sublist t.deferred :=
  sweep_sublist _ _

theorem flushSweep_kept {object : UInt64} {stamp : ℤ} {d : Deferred}
    (h : d ∈ (t.flushSweep env object stamp).2) : flushes object stamp d = false :=
  @sweep_kept RegistryIoTable _ (fun _ d => flushes object stamp d)
    (fun t d => t.flushOne env object d) (fun _ _ _ hf => hf) _ _ _ h

/-- The invariant rule of `ApplyDeferred`'s loop. -/
theorem applySweep_invariant {P : RegistryIoTable → List Deferred → Prop}
    (hstart : P t t.deferred)
    (hone : ∀ s kept d rest, P s (kept ++ d :: rest) → s.ready d = true →
      P (s.applyOne env d) (kept ++ rest)) :
    P (t.applySweep env).1 (t.applySweep env).2 :=
  sweep_invariant_all hone hstart

theorem applySweep_sublist : (t.applySweep env).2.Sublist t.deferred := sweep_sublist _ _

/-! ## the queue -/

/-- What `Defer` does to the queue: the event joins it, unless too many wait. -/
theorem defer_deferred (waiting token : UInt64) :
    (t.defer env e pid time tick waiting token).deferred = t.deferred
      ∨ (t.defer env e pid time tick waiting token).deferred
        = t.deferred ++ [⟨e, pid, time, tick, waiting, token⟩] := by
  unfold defer
  split
  · refine Or.inl ?_
    split
    · simp
    · split <;> rfl
  · exact Or.inr rfl

/-- What `Retarget` does to the queue: some elements wait on the token instead. -/
theorem retarget_deferred : ∃ f : Deferred → Deferred,
    (t.retarget object stamp token).deferred = t.deferred.map f
      ∧ ∀ x, (f x).event = x.event ∧ (f x).token = x.token
        ∧ ((f x).waiting = x.waiting
          ∨ (f x).waiting = token ∧ retargets object stamp x = true) := by
  unfold retarget
  split
  · exact ⟨id, (List.map_id _).symm, fun x => ⟨rfl, rfl, Or.inl rfl⟩⟩
  · refine ⟨_, rfl, fun x => ?_⟩
    split
    · next hr => exact ⟨rfl, rfl, Or.inr ⟨rfl, hr⟩⟩
    · exact ⟨rfl, rfl, Or.inl rfl⟩

/-- What `FlushWaiting` keeps. -/
theorem newKeyObject_sublist (object : UInt64) (stamp : ℤ) :
    (t.newKeyObject env object stamp).deferred.Sublist t.deferred := by
  unfold newKeyObject flushWaiting
  split
  · exact List.Sublist.refl _
  · split
    · exact List.Sublist.refl _
    · exact flushSweep_sublist _ _

/-- While there is room the event joins the queue. -/
theorem defer_room (h : t.deferred.length < maxDeferred) (waiting token : UInt64) :
    t.defer env e pid time tick waiting token = { t with
      waiting := t.waiting.bump waiting
      unnamed := if (t.waiting.lookup waiting).getD 0 = 0 && !isToken waiting
        then insert waiting t.unnamed else t.unnamed
      deferred := t.deferred ++ [⟨e, pid, time, tick, waiting, token⟩] } := by
  unfold defer
  rw [if_neg (by omega)]

/-- A new key object on which nothing of an earlier one waits. -/
theorem newKeyObject_quiet {object : UInt64} {stamp : ℤ} (h0 : object ≠ 0)
    (h : ∀ d ∈ t.deferred, d.waiting = object → stamp ≤ d.event.stamp) :
    ∃ waiting, t.newKeyObject env object stamp = { t with
      waiting := waiting
      attempts := t.attempts.erase object
      pendingOpens := t.pendingOpens.erase object } := by
  unfold newKeyObject flushWaiting
  rw [if_neg h0]
  split
  · exact ⟨t.waiting, rfl⟩
  · refine ⟨t.waiting.eraseZero object, ?_⟩
    have hnone : t.flushSweep env object stamp
        = ({ t with attempts := t.attempts.insert object ⟨maxAttempts, .closed⟩ },
          t.deferred) := by
      refine sweep_of_none fun d hd => ?_
      simp only [flushes, Bool.and_eq_false_iff, decide_eq_false_iff_not, not_lt]
      exact or_iff_not_imp_left.mpr fun hw => h d hd (not_not.mp hw)
    rw [hnone]
    dsimp only
    rw [Finmap.erase_insert_self]

/-! ## the next token -/

@[simp] theorem defer_nextToken (waiting token : UInt64) :
    (t.defer env e pid time tick waiting token).nextToken = t.nextToken := by
  unfold defer
  split
  · split
    · simp
    · split <;> rfl
  · rfl

@[simp] theorem newKeyObject_nextToken (object : UInt64) (stamp : ℤ) :
    (t.newKeyObject env object stamp).nextToken = t.nextToken := by
  unfold newKeyObject flushWaiting
  split
  · rfl
  · split
    · rfl
    · exact flushSweep_invariant (P := fun s _ => s.nextToken = t.nextToken) rfl
        fun _ _ _ _ h _ _ => h

theorem onOperation_nextToken :
    (t.onOperation env e pid time tick).nextToken = t.nextToken := by
  unfold onOperation
  split
  · rfl
  · split
    · exact defer_nextToken _ _
    · split
      · rfl
      · exact defer_nextToken _ _

theorem applyOne_nextToken (d : Deferred) : (t.applyOne env d).nextToken = t.nextToken := by
  unfold applyOne
  dsimp only
  split
  · simp [applyOpen]
  · unfold applyOperation
    split <;> rfl

theorem applyDeferred_nextToken : (t.applyDeferred env).nextToken = t.nextToken :=
  sweep_state (P := fun s : RegistryIoTable => s.nextToken = t.nextToken)
    (fun _ d hs _ => (applyOne_nextToken d).trans hs) rfl

theorem deferOpen_nextToken : (t.deferOpen env e pid time tick).nextToken
    = if e.keyObject ≠ 0 && !isFailure e.status then t.nextToken + 1 else t.nextToken := by
  unfold deferOpen
  split
  · rw [defer_nextToken, retarget_nextToken]
    rfl
  · exact defer_nextToken _ _

/-! ## names are added to, pending opens forgotten -/

theorem mem_count_names {k : UInt64} (h : k ∈ t.names) (b : Bool) :
    k ∈ (t.count env e name pid time tick b).names := by
  rw [count_names]
  split
  · exact Finmap.mem_insert.mpr (Or.inr (mem_noteBase.mpr h))
  · exact mem_noteBase.mpr h

theorem mem_nameToken_names {k : UInt64} (h : k ∈ t.names) (d : Deferred) :
    k ∈ (t.nameToken d name tick).names := by
  rw [nameToken_names]
  split
  · exact h
  · exact Finmap.mem_insert.mpr (Or.inr h)

theorem nameToken_pending {object token : UInt64}
    (h : (t.nameToken d name tick).pendingOpens.lookup object = some token) :
    t.pendingOpens.lookup object = some token := by
  rw [nameToken_pendingOpens] at h
  split at h
  · rw [Finmap.lookup_erase_eq] at h
    split at h
    · exact absurd h nofun
    · exact h
  · exact h

theorem mem_flushOne_names {k object : UInt64} (h : k ∈ t.names) (d : Deferred) :
    k ∈ (t.flushOne env object d).names :=
  @mem_count_names env t d.event _ d.pid d.time d.tick k h true

/-! ## names are not empty -/

/-- Where no name is empty, no open gives an empty one. -/
theorem openName_ne_nil (htexts : ∀ k n, t.names.lookup k = some n → n.text ≠ [])
    (hn : t.openName env e = some name) : name ≠ [] := by
  unfold openName at hn
  split at hn
  · next hb =>
    rw [← Option.some.inj hn]
    refine env.registryName_ne_nil ?_
    rintro he
    rw [he] at hb
    exact absurd hb (by decide)
  · split at hn
    · exact absurd hn nofun
    · next n hbase =>
      have hne := htexts e.baseObject n hbase
      rw [← Option.some.inj hn]
      split
      · exact hne
      · simp

theorem unnamedBase_ne_nil (base : UInt64) (relative : WString) :
    t.unnamedBase base relative ≠ [] := by
  simp [unnamedBase]

/-- The name an open that waited is counted under. -/
def appliedName (t : RegistryIoTable) (env : Env) (d : Deferred) : WString :=
  (t.openName env d.event).getD (t.unnamedBase d.event.baseObject d.event.name)

theorem appliedName_ne_nil (htexts : ∀ k n, t.names.lookup k = some n → n.text ≠ []) :
    t.appliedName env d ≠ [] := by
  unfold appliedName
  cases hn : t.openName env d.event with
  | some name => exact openName_ne_nil htexts hn
  | none => exact unnamedBase_ne_nil _ _

/-! ## counting what waited -/

/-- An open that waited is counted, and its token named; its key object gets the name while the
open is the pending one. -/
theorem applyOne_open_eq (t : RegistryIoTable) (env : Env) (ho : d.event.isOpen = true) :
    t.applyOne env d = ({ t with
        waiting := (t.waiting.decrement d.waiting).eraseZero d.waiting }.count env d.event
          (t.appliedName env d) d.pid d.time d.tick
          (decide (t.pendingOpens.lookup d.event.keyObject = some d.token))).nameToken d
            (t.appliedName env d) d.tick := by
  unfold applyOne
  dsimp only
  rw [if_pos ho]
  rfl

theorem applyOne_open (t : RegistryIoTable) (env : Env) (ho : d.event.isOpen = true) :
    ∃ (s : RegistryIoTable) (b : Bool), s.names = t.names ∧ s.pendingOpens = t.pendingOpens
      ∧ s.counted = t.counted
      ∧ (b = true ↔ t.pendingOpens.lookup d.event.keyObject = some d.token)
      ∧ t.applyOne env d = (s.count env d.event (t.appliedName env d) d.pid d.time d.tick
          b).nameToken d (t.appliedName env d) d.tick :=
  ⟨{ t with waiting := (t.waiting.decrement d.waiting).eraseZero d.waiting }, _, rfl, rfl, rfl,
    decide_eq_true_iff, applyOne_open_eq t env ho⟩

/-- Another operation that waited changes no pending open. -/
theorem applyOne_operation (t : RegistryIoTable) (env : Env) (ho : ¬ d.event.isOpen = true) :
    (∀ k ∈ t.names, k ∈ (t.applyOne env d).names)
      ∧ (t.applyOne env d).pendingOpens = t.pendingOpens := by
  unfold applyOne
  dsimp only
  rw [if_neg ho]
  unfold applyOperation
  split
  · refine ⟨fun k hk => ?_, rfl⟩
    rw [count_names_of_operation (by simpa using ho)]
    exact Finmap.mem_insert.mpr (Or.inr hk)
  · refine ⟨fun k hk => ?_, rfl⟩
    rw [count_names_of_operation (by simpa using ho)]
    exact hk

/-- Names are only added to by counting a waiting operation. -/
theorem mem_applyOne_names {k : UInt64} (h : k ∈ t.names) (d : Deferred) :
    k ∈ (t.applyOne env d).names := by
  by_cases ho : d.event.isOpen = true
  · obtain ⟨s, b, hnames, -, -, -, heq⟩ := applyOne_open t env ho
    rw [heq]
    rw [← hnames] at h
    exact mem_nameToken_names (mem_count_names h b) d
  · exact (applyOne_operation t env ho).1 k h

/-- Pending opens are only forgotten by counting a waiting operation. -/
theorem applyOne_pending {object token : UInt64}
    (h : (t.applyOne env d).pendingOpens.lookup object = some token) :
    t.pendingOpens.lookup object = some token := by
  by_cases ho : d.event.isOpen = true
  · obtain ⟨s, b, -, hpending, -, -, heq⟩ := applyOne_open t env ho
    rw [heq] at h
    rw [← hpending]
    exact nameToken_pending (t := s.count env d.event _ d.pid d.time d.tick b) h
  · rw [(applyOne_operation t env ho).2] at h
    exact h

end RegistryIoTable

/-! ## tokens and attempts -/

/-- Within the token range the next token does not wrap around. -/
theorem lt_succ_of_isToken {token : UInt64} (ht : isToken token = true) : token < token + 1 := by
  simp only [isToken, Bool.and_eq_true, decide_eq_true_eq, UInt64.lt_iff_toNat_lt] at ht
  have hbound : token.toNat < 0x8000000000000000 := ht.2
  rw [UInt64.lt_iff_toNat_lt, UInt64.toNat_add, UInt64.toNat_one]
  omega

theorem nameFailed_count (t : RegistryIoTable) (object : UInt64) (why : RegistryUnnamed) (n : ℕ)
    (h : n ≤ ((t.attempts.lookup object).getD {}).count) :
    n + 1 ≤ (((t.nameFailed object why).attempts.lookup object).getD {}).count := by
  simp [RegistryIoTable.nameFailed, Finmap.lookup_insert, h]

theorem gaveUp_of_count {t : RegistryIoTable} {object : UInt64}
    (h : maxAttempts ≤ ((t.attempts.lookup object).getD {}).count) : t.gaveUp object = true := by
  unfold RegistryIoTable.gaveUp
  cases ha : t.attempts.lookup object with
  | none => rw [ha] at h; simp [maxAttempts] at h
  | some a => rw [ha] at h; simpa using Or.inr h

theorem applyOne_attempts {env : Env} (t : RegistryIoTable) (d : Deferred) :
    (t.applyOne env d).attempts = t.attempts := by
  unfold RegistryIoTable.applyOne
  dsimp only
  split
  · simp [RegistryIoTable.applyOpen]
  · unfold RegistryIoTable.applyOperation
    split <;> rfl

/-! ## operations -/

/-- What `OnEvent` is given, and what waits or is counted. -/
structure Operation where
  event : RegistryEvent
  pid : UInt32
  time : ℤ
  tick : UInt64
deriving DecidableEq, Repr

/-- The call that gives the operation to the table. -/
def Operation.call (o : Operation) : Call := .onEvent o.event o.pid o.time o.tick

def Deferred.operation (d : Deferred) : Operation := ⟨d.event, d.pid, d.time, d.tick⟩

def Counted.operation (c : Counted) : Operation := ⟨c.event, c.pid, c.time, c.tick⟩

/-- `Retarget` changes only what is waited on. -/
theorem RegistryIoTable.retarget_map_operation (t : RegistryIoTable) (object : UInt64) (stamp : ℤ)
    (token : UInt64) : (t.retarget object stamp token).deferred.map Deferred.operation
      = t.deferred.map Deferred.operation := by
  unfold RegistryIoTable.retarget
  split
  · rfl
  · rw [List.map_map]
    refine List.map_congr_left fun d _ => ?_
    simp only [Function.comp_apply]
    split <;> rfl

/-- The calls that forget rows: the others only add to them. -/
def Call.forgets : Call → Bool
  | .prune _ | .removeProcess _ | .clear => true
  | _ => false

/-! ## rows and history change by counting only -/

section Holds

variable (env : Env) (Q : Operation → Prop)
  (P : (Finmap fun _ : RowId => Row) → List Counted → Prop)

/-- Counting an operation that meets `Q` keeps `P`. -/
def CountKeeps : Prop :=
  ∀ (t : RegistryIoTable) (e : RegistryEvent) (name : WString) (pid : UInt32) (time : ℤ)
    (tick : UInt64) (b : Bool), Q ⟨e, pid, time, tick⟩ → P t.rows t.counted →
    P (t.count env e name pid time tick b).rows (t.count env e name pid time tick b).counted

/-- What waits meets `Q`, and the rows and the history meet `P`. -/
structure Holds (t : RegistryIoTable) : Prop where
  waiting : ∀ d ∈ t.deferred, Q d.operation
  rows : P t.rows t.counted

end Holds

/-- What is left of a queue after one element is taken out was in it. -/
theorem mem_skip {d x : Deferred} {kept rest : List Deferred} (h : x ∈ kept ++ rest) :
    x ∈ kept ++ d :: rest := by
  simp only [List.mem_append, List.mem_cons] at h ⊢
  tauto

namespace Holds

variable {env : Env} {Q : Operation → Prop}
  {P : (Finmap fun _ : RowId => Row) → List Counted → Prop} {t : RegistryIoTable}
  {e : RegistryEvent} {name : WString} {pid : UInt32} {time : ℤ} {tick : UInt64}

theorem count (hc : CountKeeps env Q P) (hq : Q ⟨e, pid, time, tick⟩) (h : Holds Q P t)
    (b : Bool) : Holds Q P (t.count env e name pid time tick b) where
  waiting := h.waiting
  rows := hc t e name pid time tick b hq h.rows

/-- A change of the other fields. -/
theorem of_eq {t' : RegistryIoTable} (h : Holds Q P t) (hd : t'.deferred = t.deferred)
    (hr : t'.rows = t.rows) (hc : t'.counted = t.counted) : Holds Q P t' where
  waiting := by rw [hd]; exact h.waiting
  rows := by rw [hr, hc]; exact h.rows

theorem nameToken (h : Holds Q P t) (d : Deferred) :
    Holds Q P (t.nameToken d name tick) :=
  h.of_eq (by simp) (by simp) (by simp)

theorem defer (hc : CountKeeps env Q P) (hq : Q ⟨e, pid, time, tick⟩) (h : Holds Q P t)
    (waiting token : UInt64) : Holds Q P (t.defer env e pid time tick waiting token) := by
  unfold RegistryIoTable.defer
  split
  · split
    · exact (h.count hc hq true).nameToken _
    · split
      · exact h.count hc hq true
      · exact h.count hc hq true
  · refine ⟨fun d hd => ?_, h.rows⟩
    rcases List.mem_append.mp hd with hd | hd
    · exact h.waiting d hd
    · rw [List.mem_singleton.mp hd]
      exact hq

theorem retarget (h : Holds Q P t) (object : UInt64) (stamp : ℤ) (token : UInt64) :
    Holds Q P (t.retarget object stamp token) := by
  refine ⟨fun d hd => ?_, by simpa using h.rows⟩
  unfold RegistryIoTable.retarget at hd
  split at hd
  · exact h.waiting d hd
  · obtain ⟨d', hd', rfl⟩ := List.mem_map.mp hd
    have hq := h.waiting d' hd'
    split <;> exact hq

theorem flushWaiting (hc : CountKeeps env Q P) (h : Holds Q P t) (object : UInt64) (stamp : ℤ) :
    Holds Q P (t.flushWaiting env object stamp) := by
  unfold RegistryIoTable.flushWaiting
  split
  · exact h
  · have hs : (∀ d ∈ (t.flushSweep env object stamp).2, Q d.operation)
        ∧ P (t.flushSweep env object stamp).1.rows (t.flushSweep env object stamp).1.counted := by
      refine RegistryIoTable.flushSweep_invariant
        (P := fun s l => (∀ d ∈ l, Q d.operation) ∧ P s.rows s.counted) ⟨h.waiting, h.rows⟩ ?_
      rintro s kept d rest ⟨hl, hs⟩ - -
      refine ⟨fun x hx => hl x (mem_skip hx), ?_⟩
      exact hc s d.event _ d.pid d.time d.tick true (hl d (by simp)) hs
    exact ⟨hs.1, hs.2⟩

theorem newKeyObject (hc : CountKeeps env Q P) (h : Holds Q P t) (object : UInt64) (stamp : ℤ) :
    Holds Q P (t.newKeyObject env object stamp) := by
  unfold RegistryIoTable.newKeyObject
  split
  · exact h
  · exact (h.flushWaiting hc object stamp).of_eq rfl rfl rfl

theorem deferOpen (hc : CountKeeps env Q P) (hq : Q ⟨e, pid, time, tick⟩) (h : Holds Q P t) :
    Holds Q P (t.deferOpen env e pid time tick) := by
  unfold RegistryIoTable.deferOpen
  split
  · have hp : Holds Q P (t.pend e.keyObject) := h.of_eq rfl rfl rfl
    exact (hp.retarget _ _ _).defer hc hq _ _
  · exact h.defer hc hq _ _

theorem onOpen (hc : CountKeeps env Q P) (hq : Q ⟨e, pid, time, tick⟩) (h : Holds Q P t) :
    Holds Q P (t.onOpen env e pid time tick) := by
  have hn := h.newKeyObject hc e.keyObject e.stamp
  unfold RegistryIoTable.onOpen
  dsimp only
  split
  · exact hn.count hc hq true
  · split
    · exact hn.count hc hq true
    · exact hn.deferOpen hc hq

theorem onOperation (hc : CountKeeps env Q P) (hq : Q ⟨e, pid, time, tick⟩) (h : Holds Q P t) :
    Holds Q P (t.onOperation env e pid time tick) := by
  unfold RegistryIoTable.onOperation
  split
  · next n _ =>
    have hu : Holds Q P (t.useName e.keyObject n tick tick) := h.of_eq rfl rfl rfl
    exact hu.count hc hq true
  · split
    · exact h.defer hc hq _ _
    · split
      · exact h.count hc hq true
      · exact h.defer hc hq _ _

theorem onEvent (hc : CountKeeps env Q P) (hq : Q ⟨e, pid, time, tick⟩) (h : Holds Q P t) :
    Holds Q P (t.onEvent env e pid time tick) := by
  unfold RegistryIoTable.onEvent
  split
  · exact h
  · split
    · split
      · exact h
      · exact h.onOpen hc hq
    · exact h.onOperation hc hq

/-- Counting one waiting operation, whichever way. -/
theorem applyOne_rows (hc : CountKeeps env Q P) (t : RegistryIoTable) (d : Deferred)
    (hq : Q d.operation) (h : P t.rows t.counted) :
    P (t.applyOne env d).rows (t.applyOne env d).counted := by
  have hcount : ∀ (t' : RegistryIoTable) name b, t'.rows = t.rows → t'.counted = t.counted →
      P (t'.count env d.event name d.pid d.time d.tick b).rows
        (t'.count env d.event name d.pid d.time d.tick b).counted := by
    intro t' name b hr hco
    exact hc t' d.event name d.pid d.time d.tick b hq (by rw [hr, hco]; exact h)
  unfold RegistryIoTable.applyOne
  dsimp only
  split
  · unfold RegistryIoTable.applyOpen
    rw [RegistryIoTable.nameToken_rows, RegistryIoTable.nameToken_counted]
    exact hcount _ _ _ rfl rfl
  · unfold RegistryIoTable.applyOperation
    split
    · exact hcount _ _ _ rfl rfl
    · exact hcount _ _ _ rfl rfl

theorem applyDeferred (hc : CountKeeps env Q P) (h : Holds Q P t) :
    Holds Q P (t.applyDeferred env) := by
  have hs : (∀ d ∈ (t.applySweep env).2, Q d.operation)
      ∧ P (t.applySweep env).1.rows (t.applySweep env).1.counted := by
    refine RegistryIoTable.applySweep_invariant
      (P := fun s l => (∀ d ∈ l, Q d.operation) ∧ P s.rows s.counted) ⟨h.waiting, h.rows⟩ ?_
    rintro s kept d rest ⟨hl, hs⟩ -
    exact ⟨fun x hx => hl x (mem_skip hx), applyOne_rows hc s d (hl d (by simp)) hs⟩
  exact ⟨hs.1, hs.2⟩

/-- Every call but the ones that forget rows: the event given may be counted or wait. -/
theorem step (hc : CountKeeps env Q P) (h : Holds Q P t) {c : Call} (hf : c.forgets = false)
    (hq : ∀ e pid time tick, c = .onEvent e pid time tick → Q ⟨e, pid, time, tick⟩) :
    Holds Q P (t.step env c) := by
  cases c with
  | onEvent e pid time tick => exact h.onEvent hc (hq e pid time tick rfl)
  | takeUnnamed => exact h.of_eq rfl rfl rfl
  | setName => exact h.of_eq rfl rfl rfl
  | nameFailed => exact h.of_eq rfl rfl rfl
  | applyDeferred => exact h.applyDeferred hc
  | prune => exact absurd hf Bool.false_ne_true.symm
  | removeProcess => exact absurd hf Bool.false_ne_true.symm
  | clear => exact absurd hf Bool.false_ne_true.symm

/-- Every call, for a fact that erasing rows keeps too. -/
theorem step_any (hc : CountKeeps env Q P)
    (herase : ∀ rows counted p, P rows counted → P (rows.eraseIf p) counted)
    (hempty : ∀ counted, P ∅ counted) (h : Holds Q P t) {c : Call}
    (hq : ∀ e pid time tick, c = .onEvent e pid time tick → Q ⟨e, pid, time, tick⟩) :
    Holds Q P (t.step env c) := by
  cases hf : c.forgets with
  | false => exact h.step hc hf hq
  | true =>
    cases c with
    | prune tick =>
      exact ⟨h.waiting, herase _ _ (fun _ r => decide (tick - r.lastTick > keyIdle)) h.rows⟩
    | removeProcess pid => exact ⟨h.waiting, herase _ _ (fun id _ => decide (id.pid = pid)) h.rows⟩
    | clear => exact ⟨fun d hd => absurd hd List.not_mem_nil, hempty _⟩
    | _ => exact absurd hf Bool.false_ne_true

end Holds

end WinSys.Registry
