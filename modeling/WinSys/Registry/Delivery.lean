import WinSys.Registry.Resolver

/-!
# An open and operations on its key object, in any order

The session delivers each processor's buffer as it fills, so operations on a key object may come
before the open that named it. What the table is after such a delivery depends on the order in the
place of the operations in `m_Deferred` only: they wait on the address or on the open's token, or
are counted at once under the open's name.

* `delivered_named`: the open names its key object at once
* `delivered_awaited`: the open waits for its base
-/

namespace WinSys.Registry

open Infra

/-- An open and operations on its key object, in the order they are delivered. -/
structure Delivery where
  before : List Operation
  opened : Operation
  after : List Operation

namespace Delivery

variable (x : Delivery)

def operations : List Operation := x.before ++ x.opened :: x.after

def calls : List Call := x.operations.map Operation.call

def object : UInt64 := x.opened.event.keyObject

def base : UInt64 := x.opened.event.baseObject

end Delivery

/-- An operation as it waits. -/
def Operation.waits (o : Operation) (waiting token : UInt64) : Deferred :=
  ⟨o.event, o.pid, o.time, o.tick, waiting, token⟩

/-- An operation as it is counted under a name. -/
def Operation.entry (name : WString) (o : Operation) : Entry := ⟨o.event, name, o.pid⟩

/-- An operation other than an open, of an open's key object and not before it. -/
structure Operation.IsOf (o : Operation) (e : RegistryEvent) : Prop where
  operation : o.event.isOpen = false
  counted : o.event.operation.isIgnored = false
  object : o.event.keyObject = e.keyObject
  stamp : e.stamp ≤ o.event.stamp

/-! ## operations -/

section Operations

variable {env : Env} {t : RegistryIoTable} {object w : UInt64} {l : List Operation}
  {o : Operation} {e : RegistryEvent}

theorem step_operation (ho : o.IsOf e) (t : RegistryIoTable) : t.step env o.call
    = t.onOperation env o.event o.pid o.time o.tick := by
  show t.onEvent env o.event o.pid o.time o.tick = _
  rw [RegistryIoTable.onEvent, if_neg (by simp [ho.counted]), if_neg (by simp [ho.operation])]

/-- What operations on a key object wait on, as long as it has no name. -/
def WaitsOn (t : RegistryIoTable) (object w : UInt64) : Prop :=
  t.names.lookup object = none
    ∧ (t.pendingOpens.lookup object = some w
      ∨ t.pendingOpens.lookup object = none ∧ t.gaveUp object = false ∧ w = object)

theorem onOperation_waits (h : WaitsOn t o.event.keyObject w) :
    t.onOperation env o.event o.pid o.time o.tick
      = t.defer env o.event o.pid o.time o.tick w 0 := by
  obtain ⟨hname, hpending | ⟨hpending, hgave, hw⟩⟩ := h
  · simp only [RegistryIoTable.onOperation, hname, hpending]
  · simp only [RegistryIoTable.onOperation, hname, hpending, hgave, hw, Bool.false_eq_true,
      if_false]

/-- Operations on a key object without a name join the queue. -/
theorem run_waiting (hl : ∀ o ∈ l, o.IsOf e) (hw : WaitsOn t e.keyObject w)
    (hroom : t.deferred.length + l.length ≤ maxDeferred) :
    ∃ waiting unnamed, run (RegistryIoTable.step env) t (l.map Operation.call) = { t with
        deferred := t.deferred ++ l.map fun o => o.waits w 0
        waiting := waiting
        unnamed := unnamed }
      ∧ ∀ k, k ≠ w ∨ isToken w = true → (k ∈ unnamed ↔ k ∈ t.unnamed) := by
  induction l generalizing t with
  | nil => exact ⟨t.waiting, t.unnamed, by simp, fun _ _ => Iff.rfl⟩
  | cons o l ih =>
    have ho := hl o List.mem_cons_self
    have hlen : t.deferred.length < maxDeferred := by
      rw [List.length_cons] at hroom
      omega
    have hone : t.step env o.call = { t with
        waiting := t.waiting.bump w
        unnamed := if (t.waiting.lookup w).getD 0 = 0 && !isToken w
          then insert w t.unnamed else t.unnamed
        deferred := t.deferred ++ [o.waits w 0] } := by
      rw [step_operation ho, onOperation_waits (w := w) (by rw [ho.object]; exact hw),
        RegistryIoTable.defer_room hlen]
      rfl
    obtain ⟨waiting, unnamed, hrun, hunnamed⟩ := ih (t := t.step env o.call)
      (fun x hx => hl x (List.mem_cons_of_mem o hx)) (by rw [hone]; exact hw) (by
        rw [hone, List.length_append, List.length_singleton]
        rw [List.length_cons] at hroom
        omega)
    refine ⟨waiting, unnamed, ?_, fun k hk => ?_⟩
    · rw [List.map_cons, run_cons, hrun, hone]
      simp
    · rw [hunnamed k hk, hone]
      dsimp only
      split
      · next hins =>
        simp only [Bool.and_eq_true, Bool.not_eq_true'] at hins
        rw [Finset.mem_insert]
        refine or_iff_right fun hkw => ?_
        rcases hk with hk | hk
        · exact hk hkw
        · rw [hins.2] at hk
          exact absurd hk (by simp)
      · rfl

/-- Operations on a named key object are counted under its name. -/
theorem run_named {name : WString} (hl : ∀ o ∈ l, o.IsOf e) (hn : t.text e.keyObject = some name) :
    Alike (fun _ => False) t (run (RegistryIoTable.step env) t (l.map Operation.call))
      ∧ (run (RegistryIoTable.step env) t (l.map Operation.call)).deferred = t.deferred
      ∧ (run (RegistryIoTable.step env) t (l.map Operation.call)).unnamed = t.unnamed
      ∧ (run (RegistryIoTable.step env) t (l.map Operation.call)).entries
        = (l.map (Operation.entry name)).reverse ++ t.entries := by
  induction l generalizing t with
  | nil => exact ⟨Alike.refl t, rfl, rfl, rfl⟩
  | cons o l ih =>
    have ho := hl o List.mem_cons_self
    have hlookup : ∃ n : Name, t.names.lookup o.event.keyObject = some n ∧ n.text = name := by
      rw [RegistryIoTable.text, Option.map_eq_some_iff] at hn
      rw [ho.object]
      exact hn
    obtain ⟨n, hln, htext⟩ := hlookup
    have hone : t.step env o.call = (t.useName o.event.keyObject n o.tick o.tick).count env
        o.event n.text o.pid o.time o.tick true := by
      rw [step_operation ho]
      simp only [RegistryIoTable.onOperation, hln]
    have halike : Alike (fun _ => False) t (t.step env o.call) := by
      rw [hone]
      refine ⟨fun k _ => ?_, fun k _ _ => rfl, rfl⟩
      rw [RegistryIoTable.text, RegistryIoTable.text,
        RegistryIoTable.count_names_of_operation ho.operation]
      show _ = ((t.names.insert o.event.keyObject _).lookup k).map Name.text
      rw [Finmap.lookup_insert_eq]
      split
      · next hk => rw [hk, hln]; rfl
      · rfl
    have hn' : (t.step env o.call).text e.keyObject = some name := by
      rw [← halike.text _ not_false]
      exact hn
    obtain ⟨hrest, hdeferred, hunnamed, hentries⟩ :=
      ih (fun x hx => hl x (List.mem_cons_of_mem o hx)) hn'
    rw [List.map_cons, run_cons]
    refine ⟨halike.trans hrest, ?_, ?_, ?_⟩
    · rw [hdeferred, hone]
      rfl
    · rw [hunnamed, hone]
      rfl
    · rw [hentries, hone, htext]
      simp [RegistryIoTable.entries, Operation.entry, Counted.entry, RegistryIoTable.useName]

end Operations

/-! ## the open -/

/-- The name an open gets at once, if it doesn't have to wait. -/
def RegistryIoTable.openedName (env : Env) (t : RegistryIoTable) (e : RegistryEvent) :
    Option WString :=
  match t.openName env e with
  | some name => some name
  | none =>
    if t.gaveUp e.baseObject then some (t.unnamedBase e.baseObject e.name) else none

/-- Nothing is known of a key object, and nothing waits on it. -/
structure Unknown (t : RegistryIoTable) (object : UInt64) : Prop where
  name : t.names.lookup object = none
  pending : t.pendingOpens.lookup object = none
  idle : ∀ d ∈ t.deferred, d.waiting ≠ object
  trying : t.gaveUp object = false

/-- A successful open and operations of its key object, with addresses that are no tokens. -/
structure Delivery.Valid (x : Delivery) : Prop where
  before : ∀ o ∈ x.before, o.IsOf x.opened.event
  after : ∀ o ∈ x.after, o.IsOf x.opened.event
  opens : x.opened.event.opens = true
  object : isToken x.object = false
  base : isToken x.base = false

section Open

variable {env : Env} {t : RegistryIoTable} {x : Delivery} {name : WString} {e : RegistryEvent}

theorem Delivery.Valid.isOpen (hx : x.Valid) : x.opened.event.isOpen = true := by
  have hopens := hx.opens
  simp only [RegistryEvent.opens, Bool.and_eq_true] at hopens
  exact hopens.1.1

theorem openedName_ne_nil (htexts : ∀ k n, t.names.lookup k = some n → n.text ≠ [])
    (hn : t.openedName env e = some name) : name ≠ [] := by
  unfold RegistryIoTable.openedName at hn
  split at hn
  · next n ho =>
    rw [← Option.some.inj hn]
    exact RegistryIoTable.openName_ne_nil htexts ho
  · split at hn
    · rw [← Option.some.inj hn]
      exact RegistryIoTable.unnamedBase_ne_nil _ _
    · exact absurd hn nofun

theorem Unknown.ne_zero {object : UInt64} (h : Unknown t object) : object ≠ 0 := by
  rintro rfl
  have htrying := h.trying
  simp [RegistryIoTable.gaveUp] at htrying

/-- An open that is neither retried nor failed is counted or deferred. -/
theorem step_open (ho : x.opened.event.opens = true) (t : RegistryIoTable) :
    t.step env x.opened.call
      = match (t.newKeyObject env x.object x.opened.event.stamp).openedName env
          x.opened.event with
        | some name => (t.newKeyObject env x.object x.opened.event.stamp).count env
            x.opened.event name x.opened.pid x.opened.time x.opened.tick true
        | none => (t.newKeyObject env x.object x.opened.event.stamp).deferOpen env
            x.opened.event x.opened.pid x.opened.time x.opened.tick := by
  simp only [RegistryEvent.opens, Bool.and_eq_true, Bool.not_eq_true'] at ho
  obtain ⟨⟨hopen, hretried⟩, -⟩ := ho
  have hignored : x.opened.event.operation.isIgnored = false := by
    simp only [RegistryEvent.isOpen, Bool.or_eq_true, decide_eq_true_eq] at hopen
    rcases hopen with hop | hop
    · simp [RegistryOperation.isIgnored, hop]
    · simp [RegistryOperation.isIgnored, hop]
  show t.onEvent env x.opened.event x.opened.pid x.opened.time x.opened.tick = _
  rw [RegistryIoTable.onEvent, if_neg (by simp [hignored]), if_pos hopen,
    if_neg (by simp [hretried]), RegistryIoTable.onOpen, RegistryIoTable.openedName,
    Delivery.object]
  cases (t.newKeyObject env x.opened.event.keyObject x.opened.event.stamp).openName env
      x.opened.event with
  | some name => rfl
  | none =>
    dsimp only
    by_cases hg : (t.newKeyObject env x.opened.event.keyObject
        x.opened.event.stamp).gaveUp x.opened.event.baseObject = true
    · rw [if_pos hg, if_pos hg]
    · rw [if_neg hg, if_neg hg]

/-- Forgetting the failed attempts on an unknown key object changes no open's name. -/
theorem openedName_erase {s : RegistryIoTable} {object : UInt64} (hu : Unknown t object)
    (hn : s.names = t.names) (ha : s.attempts = t.attempts.erase object) :
    s.openedName env e = t.openedName env e := by
  have hopen : s.openName env e = t.openName env e := by
    rw [RegistryIoTable.openName, RegistryIoTable.openName, hn]
  rw [RegistryIoTable.openedName, RegistryIoTable.openedName, hopen]
  by_cases hb : e.baseObject = object
  · have hs : s.gaveUp e.baseObject = false := by
      rw [RegistryIoTable.gaveUp, ha, hb, Finmap.lookup_erase]
      simp [hu.ne_zero]
    have ht : t.gaveUp e.baseObject = false := by rw [hb]; exact hu.trying
    rw [hs, ht]
    rfl
  · have hlookup : s.attempts.lookup e.baseObject = t.attempts.lookup e.baseObject := by
      rw [ha, Finmap.lookup_erase_ne hb]
    rw [RegistryIoTable.gaveUp, RegistryIoTable.gaveUp, RegistryIoTable.unnamedBase,
      RegistryIoTable.unnamedBase, RegistryIoTable.whyUnnamed, RegistryIoTable.whyUnnamed,
      hlookup]

/-- The table an open of an unknown key object names itself in: what came before it waits on the
address, of which nothing else is known. -/
def Delivery.met (x : Delivery) (t : RegistryIoTable) (waiting : Finmap fun _ : UInt64 => ℤ)
    (unnamed : Finset UInt64) : RegistryIoTable :=
  { t with
    deferred := t.deferred ++ x.before.map fun o => o.waits x.object 0
    waiting := waiting
    unnamed := unnamed
    attempts := t.attempts.erase x.object
    pendingOpens := t.pendingOpens.erase x.object }

theorem run_before (hu : Unknown t x.object) (hx : x.Valid)
    (hroom : t.deferred.length + x.before.length ≤ maxDeferred) :
    ∃ waiting unnamed, (run (RegistryIoTable.step env) t
        (x.before.map Operation.call)).newKeyObject env x.object x.opened.event.stamp
          = x.met t waiting unnamed
      ∧ ∀ k, k ≠ x.object → (k ∈ unnamed ↔ k ∈ t.unnamed) := by
  obtain ⟨waiting, unnamed, hrun, hunnamed⟩ := @run_waiting env t x.object x.before
    x.opened.event hx.before ⟨hu.name, Or.inr ⟨hu.pending, hu.trying, rfl⟩⟩ hroom
  rw [hrun]
  obtain ⟨waiting', hnew⟩ := @RegistryIoTable.newKeyObject_quiet env { t with
      deferred := t.deferred ++ x.before.map fun o => o.waits x.object 0
      waiting := waiting
      unnamed := unnamed } x.object x.opened.event.stamp hu.ne_zero (by
    intro d hd hw
    rcases List.mem_append.mp hd with hd | hd
    · exact absurd hw (hu.idle d hd)
    · obtain ⟨o, ho, rfl⟩ := List.mem_map.mp hd
      exact (hx.before o ho).stamp)
  exact ⟨waiting', unnamed, hnew, fun k hk => hunnamed k (Or.inl hk)⟩

theorem run_calls (t : RegistryIoTable) : run (RegistryIoTable.step env) t x.calls
    = run (RegistryIoTable.step env)
      ((run (RegistryIoTable.step env) t (x.before.map Operation.call)).step env x.opened.call)
      (x.after.map Operation.call) := by
  rw [Delivery.calls, Delivery.operations, List.map_append, List.map_cons, run_append, run_cons]

/-- An open that names its key object at once. -/
structure DeliveredNamed (x : Delivery) (name : WString) (t t' : RegistryIoTable) : Prop where
  alike : Alike (· = x.object) { t with pendingOpens := t.pendingOpens.erase x.object } t'
  deferred : t'.deferred = t.deferred ++ x.before.map fun o => o.waits x.object 0
  text : t'.text x.object = some name
  unnamed : ∀ k, k ≠ x.object → (k ∈ t'.unnamed ↔ k ∈ t.unnamed)
  entries : t'.entries = (x.after.map (Operation.entry name)).reverse
    ++ x.opened.entry name :: t.entries

theorem delivered_named (hu : Unknown t x.object) (hx : x.Valid)
    (hroom : t.deferred.length + x.before.length ≤ maxDeferred) (hne : name ≠ [])
    (hname : t.openedName env x.opened.event = some name) :
    DeliveredNamed x name t (run (RegistryIoTable.step env) t x.calls) := by
  obtain ⟨waiting, unnamed, hbefore, hunnamed⟩ := @run_before env t x hu hx hroom
  have hopened : (run (RegistryIoTable.step env) t (x.before.map Operation.call)).step env
      x.opened.call = (x.met t waiting unnamed).count env x.opened.event name x.opened.pid
        x.opened.time x.opened.tick true := by
    have hmet : (x.met t waiting unnamed).openedName env x.opened.event = some name := by
      rw [openedName_erase (s := x.met t waiting unnamed) hu rfl rfl, hname]
    rw [step_open hx.opens, hbefore, hmet]
  rw [run_calls, hopened]
  have hopens := hx.opens
  simp only [RegistryEvent.opens, Bool.and_eq_true, Bool.not_eq_true'] at hopens
  have hnames : x.opened.event.names name true = true := by
    have h0 : x.opened.event.keyObject ≠ 0 := hu.ne_zero
    simp [RegistryEvent.names, hopens.1.1, hopens.2, h0, hne]
  have htext : ((x.met t waiting unnamed).count env x.opened.event name x.opened.pid
      x.opened.time x.opened.tick true).text x.object = some name := by
    rw [RegistryIoTable.count_text, if_pos ⟨hnames, rfl⟩]
  obtain ⟨halike, hdeferred, hsame, hentries⟩ := @run_named env _ _ _ name hx.after htext
  have hcounted : Alike (· = x.object) { t with pendingOpens := t.pendingOpens.erase x.object }
      ((x.met t waiting unnamed).count env x.opened.event name x.opened.pid x.opened.time
        x.opened.tick true) := by
    refine ⟨fun k hk => ?_, fun k hk _ => (Finmap.lookup_erase_ne hk).symm, rfl⟩
    rw [RegistryIoTable.count_text, if_neg fun h => hk h.2]
    rfl
  refine ⟨hcounted.trans (halike.mono fun _ => False.elim), hdeferred, ?_, fun k hk => ?_,
    hentries⟩
  · rw [← halike.text _ not_false, htext]
  · rw [hsame]
    exact hunnamed k hk

/-- An open that waits for its base, with the operations on its key object. -/
structure DeliveredAwaited (x : Delivery) (t t' : RegistryIoTable) : Prop where
  alike : Alike (fun _ => False) { t with
    attempts := t.attempts.erase x.object
    pendingOpens := t.pendingOpens.insert x.object t.nextToken } t'
  deferred : t'.deferred = t.deferred ++ ((x.before.map fun o => o.waits t.nextToken 0)
    ++ x.opened.waits x.base t.nextToken :: x.after.map fun o => o.waits t.nextToken 0)
  unnamed : ∀ k, k ≠ x.object ∨ k = x.base →
    (k ∈ t'.unnamed ↔ k ∈ t.unnamed ∨ k = x.base ∧ ∀ d ∈ t.deferred, d.waiting ≠ k)
  entries : t'.entries = t.entries

/-- What `Retarget` does, whether anything waits on the key object or not. -/
theorem retarget_map (h : Tallied t) (object : UInt64) (stamp : ℤ) (token : UInt64) :
    ∃ waiting, t.retarget object stamp token = { t with
      deferred := t.deferred.map fun d =>
        if RegistryIoTable.retargets object stamp d then { d with waiting := token } else d
      waiting := waiting } := by
  unfold RegistryIoTable.retarget
  split
  · next hnone =>
    refine ⟨t.waiting, ?_⟩
    have hmap : (t.deferred.map fun d =>
        if RegistryIoTable.retargets object stamp d then { d with waiting := token } else d)
          = t.deferred := by
      refine (List.map_congr_left fun d hd => ?_).trans (List.map_id _)
      have hne : d.waiting ≠ object := by
        rintro rfl
        exact Finmap.lookup_eq_none.mp hnone (h.mem_waiting hd)
      simp [RegistryIoTable.retargets, hne]
    rw [hmap]
  · exact ⟨_, rfl⟩

/-- The operations that came before the open wait on its token instead. -/
theorem retarget_before (hu : Unknown t x.object) (hx : x.Valid) (token : UInt64) :
    ((t.deferred ++ x.before.map fun o => o.waits x.object 0).map fun d =>
        if RegistryIoTable.retargets x.object x.opened.event.stamp d
          then { d with waiting := token } else d)
      = t.deferred ++ x.before.map fun o => o.waits token 0 := by
  rw [List.map_append, List.map_map]
  congr 1
  · refine (List.map_congr_left fun d hd => ?_).trans (List.map_id _)
    simp [RegistryIoTable.retargets, hu.idle d hd]
  · refine List.map_congr_left fun o ho => ?_
    simp [RegistryIoTable.retargets, Operation.waits, (hx.before o ho).stamp]

/-- The tally of what is not waited on. -/
theorem waiting_zero_iff (h : Tallied t) (k : UInt64) :
    (t.waiting.lookup k).getD 0 = 0 ↔ ∀ d ∈ t.deferred, d.waiting ≠ k := by
  have hmem := h.tally.mem_iff k
  cases hl : t.waiting.lookup k with
  | none =>
    have hnot : k ∉ t.waiting := Finmap.lookup_eq_none.mp hl
    refine iff_of_true rfl fun d hd hw => hnot ?_
    rw [← hw]
    exact h.mem_waiting hd
  | some n =>
    have hin : k ∈ t.deferred.map (·.waiting) :=
      hmem.mp (Finmap.lookup_isSome.mp (by rw [hl]; rfl))
    obtain ⟨d, hd, hw⟩ := List.mem_map.mp hin
    refine iff_of_false ?_ fun hall => hall d hd hw
    have hcount := List.count_pos_iff.mpr hin
    rw [Option.getD_some, h.tally.count k n hl]
    omega

/-- The open joins the queue after what came before it. -/
theorem deferOpen_met {waiting : Finmap fun _ : UInt64 => ℤ} {unnamed : Finset UInt64}
    (htallied : Tallied (x.met t waiting unnamed)) (hu : Unknown t x.object) (hx : x.Valid)
    (hroom : t.deferred.length + x.before.length < maxDeferred)
    (htoken : isToken t.nextToken = true) :
    ∃ waiting' unnamed', (x.met t waiting unnamed).deferOpen env x.opened.event x.opened.pid
        x.opened.time x.opened.tick = { t with
          names := t.names.erase x.object
          attempts := t.attempts.erase x.object
          pendingOpens := t.pendingOpens.insert x.object t.nextToken
          nextToken := t.nextToken + 1
          waiting := waiting'
          unnamed := unnamed'
          deferred := t.deferred ++ ((x.before.map fun o => o.waits t.nextToken 0)
            ++ [x.opened.waits x.base t.nextToken]) }
      ∧ ∀ k, k ∈ unnamed' ↔ k ∈ unnamed ∨ k = x.base ∧ ∀ d ∈ t.deferred, d.waiting ≠ k := by
  have hpend : Tallied ((x.met t waiting unnamed).pend x.object) := htallied.of_eq rfl rfl
  -- what came before moves over to the token
  obtain ⟨moved, hretarget⟩ := retarget_map hpend x.object x.opened.event.stamp t.nextToken
  have hqueue : ((x.met t waiting unnamed).pend x.object).deferred
      = t.deferred ++ x.before.map fun o => o.waits x.object 0 := rfl
  rw [hqueue, retarget_before hu hx] at hretarget
  have htally := hpend.retarget x.object x.opened.event.stamp t.nextToken
  rw [hretarget] at htally
  have hopens := hx.opens
  simp only [RegistryEvent.opens, Bool.and_eq_true, Bool.not_eq_true'] at hopens
  have hwaits : (x.opened.event.keyObject ≠ 0 && !isFailure x.opened.event.status) = true := by
    have h0 : x.opened.event.keyObject ≠ 0 := hu.ne_zero
    simp [h0, hopens.2]
  have hdefer : (x.met t waiting unnamed).deferOpen env x.opened.event x.opened.pid
      x.opened.time x.opened.tick = RegistryIoTable.defer env
        (((x.met t waiting unnamed).pend x.object).retarget x.object x.opened.event.stamp
          t.nextToken) x.opened.event x.opened.pid x.opened.time x.opened.tick x.base
          t.nextToken := by
    rw [RegistryIoTable.deferOpen, if_pos hwaits]
    rfl
  rw [hdefer, hretarget, RegistryIoTable.defer_room (by simpa using hroom)]
  refine ⟨moved.bump x.base, if (moved.lookup x.base).getD 0 = 0 && !isToken x.base
    then insert x.base unnamed else unnamed, ?_, fun k => ?_⟩
  · dsimp only [RegistryIoTable.pend, Delivery.met]
    rw [Finmap.insert_erase_self, List.append_assoc]
    rfl
  · have hzero := waiting_zero_iff htally x.base
    have hold : (∀ d ∈ t.deferred ++ x.before.map fun o => o.waits t.nextToken 0,
        d.waiting ≠ x.base) ↔ ∀ d ∈ t.deferred, d.waiting ≠ x.base := by
      refine ⟨fun h d hd => h d (List.mem_append_left _ hd), fun h d hd => ?_⟩
      rcases List.mem_append.mp hd with hd | hd
      · exact h d hd
      · obtain ⟨o, -, rfl⟩ := List.mem_map.mp hd
        show t.nextToken ≠ x.base
        intro he
        rw [he, hx.base] at htoken
        exact absurd htoken (by simp)
    have hcond : ((moved.lookup x.base).getD 0 = 0 && !isToken x.base) = true
        ↔ ∀ d ∈ t.deferred, d.waiting ≠ x.base := by
      rw [hx.base, ← hold, ← hzero]
      simp
    by_cases hidle : ∀ d ∈ t.deferred, d.waiting ≠ x.base
    · rw [if_pos (hcond.mpr hidle), Finset.mem_insert]
      constructor
      · rintro (rfl | hk)
        · exact Or.inr ⟨rfl, hidle⟩
        · exact Or.inl hk
      · rintro (hk | ⟨rfl, -⟩)
        · exact Or.inr hk
        · exact Or.inl rfl
    · rw [if_neg fun h => hidle (hcond.mp h)]
      constructor
      · exact Or.inl
      · rintro (hk | ⟨rfl, hk⟩)
        · exact hk
        · exact absurd hk hidle

theorem delivered_awaited (htallied : Tallied t) (hu : Unknown t x.object) (hx : x.Valid)
    (hroom : t.deferred.length + x.before.length + x.after.length < maxDeferred)
    (htoken : isToken t.nextToken = true)
    (hname : t.openedName env x.opened.event = none) :
    DeliveredAwaited x t (run (RegistryIoTable.step env) t x.calls) := by
  obtain ⟨waiting, unnamed, hbefore, hunnamed⟩ :=
    @run_before env t x hu hx (by omega)
  have hmet : Tallied (x.met t waiting unnamed) := by
    rw [← hbefore]
    refine Tallied.newKeyObject ?_ _ _
    exact run_invariant_mem _ Tallied (fun _ c hs (_ : True) => hs.step c) htallied
      fun _ _ => trivial
  obtain ⟨waiting', unnamed', hdefer, hunnamed'⟩ :=
    @deferOpen_met env t x waiting unnamed hmet hu hx (by omega) htoken
  have hopened : (run (RegistryIoTable.step env) t (x.before.map Operation.call)).step env
      x.opened.call = (x.met t waiting unnamed).deferOpen env x.opened.event x.opened.pid
        x.opened.time x.opened.tick := by
    have hnone : (x.met t waiting unnamed).openedName env x.opened.event = none := by
      rw [openedName_erase (s := x.met t waiting unnamed) hu rfl rfl, hname]
    rw [step_open hx.opens, hbefore, hnone]
  obtain ⟨waiting'', unnamed'', hafter, hunnamed''⟩ := @run_waiting env
    ((x.met t waiting unnamed).deferOpen env x.opened.event x.opened.pid
      x.opened.time x.opened.tick) t.nextToken x.after x.opened.event hx.after (by
    rw [hdefer]
    exact ⟨Finmap.lookup_erase _ _, Or.inl (Finmap.lookup_insert _)⟩) (by
    rw [hdefer]
    simp only [List.length_append, List.length_map, List.length_singleton]
    omega)
  rw [run_calls, hopened, hafter, hdefer]
  refine ⟨⟨fun k _ => ?_, fun k _ _ => rfl, rfl⟩, ?_, fun k hk => ?_, rfl⟩
  · show (t.names.lookup k).map Name.text = ((t.names.erase x.object).lookup k).map Name.text
    rw [Finmap.lookup_erase_eq]
    split
    · next he => rw [he, hu.name]
    · rfl
  · show t.deferred ++ _ ++ _ = _
    simp
  · show k ∈ unnamed'' ↔ _
    rw [hunnamed'' k (Or.inr htoken), hdefer]
    show k ∈ unnamed' ↔ _
    rw [hunnamed']
    by_cases ho : k = x.object
    · have hb : k = x.base := hk.resolve_left (not_not.mpr ho)
      have hidle : ∀ d ∈ t.deferred, d.waiting ≠ k := by
        rw [ho]
        exact hu.idle
      exact iff_of_true (Or.inr ⟨hb, hidle⟩) (Or.inr ⟨hb, hidle⟩)
    · rw [hunnamed k ho]

end Open

end WinSys.Registry
