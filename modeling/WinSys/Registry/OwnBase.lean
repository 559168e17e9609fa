import WinSys.Registry.Bases

/-!
# The base of a relative open

A relative open that waits is counted under the name its base's address has then. The law is that
the name is the one of the key that held the address when the open was issued, and that an open
whose token is named is not counted as an unnamed base's.

The steps that break it: another open of a base's address while something waits on the base's
token, or one that comes out of order; a flush or an answer that gives such an address another
key's name; and a pruning that erases the address's name but not the token's.

* `Rooted`: what every other step keeps
* `opens_keep_their_base`: every run without such steps
-/

namespace WinSys.Registry

open Infra

/-! ## runs with their history -/

/-- A table, and what was opened and answered. -/
structure Recorded where
  table : RegistryIoTable := {}
  bases : BaseHistory := {}

def BaseHistory.next (env : Env) (b : BaseHistory) : Call → BaseHistory
  | .onEvent e _ _ _ => if e.opens = true ∧ e.keyObject ≠ 0 then b.deliver e else b
  | .setName object name _ => b.answer object (env.registryName name)
  | _ => b

def Recorded.step (env : Env) (f : Recorded) (c : Call) : Recorded :=
  ⟨f.table.step env c, f.bases.next env c⟩

/-! ## the law -/

/-- The name of a key opened relative to a named one. -/
def relativeName (base relative : WString) : WString :=
  if relative = [] then base else base ++ [backslash] ++ relative

/-- A relative open's name is made from the name of the key that held its base's address when it
was issued: the name that key's open was counted under, or, where none was seen, the resolver's. -/
def NamedByBase (b : BaseHistory) (counted : List Counted) (e : RegistryEvent) (name : WString) :
    Prop :=
  match b.heldAt e.baseObject e.stamp with
  | some o => ∃ c ∈ counted, c.event = o ∧ name = relativeName c.name e.name
  | none => ∃ base ∈ b.answered e.baseObject, name = relativeName base e.name

/-- `ApplyDeferred` counts each relative open under such a name, or as an unnamed base's while
what it waits on has no name. -/
def OwnBases (env : Env) (f : Recorded) : Prop :=
  ∀ pre d post, f.table.deferred = pre ++ d :: post → d.IsRelative →
    (f.table.reached env pre).ready d = true →
      ∃ name, ((f.table.reached env pre).applyOne env d).counted
          = ⟨d.event, name, d.pid, d.time, d.tick⟩ :: (f.table.reached env pre).counted
        ∧ (NamedByBase f.bases (f.table.reached env pre).counted d.event name
          ∨ name = (f.table.reached env pre).unnamedBase d.event.baseObject d.event.name
            ∧ (f.table.reached env pre).text d.waiting = none)

def OwnBaseLaw (env : Env) (f : Recorded) : Call → Prop
  | .applyDeferred => OwnBases env f
  | _ => True

/-! ## the condition -/

/-- What a new open flushes gives no base a name but its holder's. -/
def FlushKeepsBases (f : Recorded) (e : RegistryEvent) : Prop :=
  ∀ d ∈ f.table.deferred, RegistryIoTable.flushes e.keyObject e.stamp d = true →
    d.event.isOpen = true → isFailure d.event.status = false →
      IsBase f.table.deferred d.event.keyObject → f.bases.holder d.event.keyObject = some d.event

/-- No open takes a base's address while something waits on the base's token, and the opens of a
base come in order. -/
def OpensInOrder (f : Recorded) (e : RegistryEvent) : Prop :=
  ∀ d ∈ f.table.deferred, d.IsRelative → d.event.baseObject = e.keyObject →
    isToken d.waiting = false
      ∧ (e.opens = true → e.stamp ≤ d.event.stamp →
        (f.bases.deliver e).heldAt e.keyObject d.event.stamp = some e)

/-- A relative open comes before any later open of its base does. -/
def ComesInOrder (f : Recorded) (e : RegistryEvent) : Prop :=
  e.name.head? ≠ some backslash → f.table.text e.baseObject = none →
    e.baseObject ≠ e.keyObject
      ∧ f.bases.heldAt e.baseObject e.stamp = f.bases.holder e.baseObject

/-- The steps that keep the names of the bases waited for. -/
def KeepsBases (env : Env) (f : Recorded) : Call → Prop
  | .onEvent e _ _ _ => e.isOpen = true → isRetried e.status = false →
    (e.keyObject ≠ 0 → FlushKeepsBases f e ∧ OpensInOrder f e) ∧ ComesInOrder f e
  | .setName object name _ => IsBase f.table.deferred object →
    ∀ o, f.bases.holder object = some o → CountedAs f.table.counted o (env.registryName name)
  | .prune tick => ∀ d ∈ f.table.deferred, d.IsRelative → isToken d.waiting = true →
    d.waiting ∈ (f.table.prune tick).names → d.event.baseObject ∈ (f.table.prune tick).names
  | _ => True

instance (f : Recorded) (e : RegistryEvent) : Decidable (FlushKeepsBases f e) :=
  inferInstanceAs (Decidable (∀ d ∈ f.table.deferred, _))

instance (f : Recorded) (e : RegistryEvent) : Decidable (OpensInOrder f e) :=
  inferInstanceAs (Decidable (∀ d ∈ f.table.deferred, _))

instance (f : Recorded) (e : RegistryEvent) : Decidable (ComesInOrder f e) :=
  inferInstanceAs (Decidable (_ → _))

instance (b : BaseHistory) (counted : List Counted) (e : RegistryEvent) (name : WString) :
    Decidable (NamedByBase b counted e name) :=
  match h : b.heldAt e.baseObject e.stamp with
  | some o => decidable_of_iff (∃ c ∈ counted, c.event = o ∧ name = relativeName c.name e.name)
      (by rw [NamedByBase, h])
  | none => decidable_of_iff (∃ base ∈ b.answered e.baseObject, name = relativeName base e.name)
      (by rw [NamedByBase, h])

instance (env : Env) (f : Recorded) : DecidablePred (KeepsBases env f)
  | .onEvent .. => inferInstanceAs (Decidable (_ → _))
  | .setName .. => inferInstanceAs (Decidable (_ → _))
  | .prune _ => inferInstanceAs (Decidable (∀ d ∈ f.table.deferred, _))
  | .takeUnnamed | .nameFailed .. | .applyDeferred | .removeProcess _ | .clear => .isTrue trivial

/-! ## the table's operations -/

/-- What a table keeps, with a queue. -/
structure Rooted (b : BaseHistory) (t : RegistryIoTable) (l : List Deferred) : Prop where
  latest : Latest b t l
  based : Based b t l

namespace Rooted

variable {env : Env} {b : BaseHistory} {t t' : RegistryIoTable} {l : List Deferred}
  {d : Deferred} {e : RegistryEvent} {name : WString} {pid : UInt32} {time : ℤ} {tick : UInt64}

theorem sublist {l' : List Deferred} (h : Rooted b t l) (hsub : l'.Sublist l) : Rooted b t l' :=
  ⟨h.latest.sublist hsub, h.based.subset hsub.subset⟩

/-- A change of the other fields. -/
theorem of_text (h : Rooted b t l) (htext : ∀ k, t'.text k = t.text k)
    (hp : t'.pendingOpens = t.pendingOpens) (hcounted : t.counted ⊆ t'.counted) :
    Rooted b t' l :=
  ⟨h.latest.forget fun k v hk => by rw [← hp]; exact hk, h.based.of_text htext hp hcounted⟩

theorem count (h : Rooted b t l) (x : Bool)
    (hnames : e.names name x = true → isToken e.keyObject = false
      ∧ (IsBase l e.keyObject → b.holder e.keyObject = some e)) :
    Rooted b (t.count env e name pid time tick x) l :=
  ⟨h.latest.forget fun _ _ hk => hk, h.based.count x hnames⟩

/-- An operation names nothing. -/
theorem count_operation (h : Rooted b t l) (ho : e.isOpen = false) (x : Bool) :
    Rooted b (t.count env e name pid time tick x) l :=
  h.count x fun hn => by simp [RegistryEvent.names, ho] at hn

theorem useName {k : UInt64} {n : Name} (h : Rooted b t l) (hn : t.names.lookup k = some n)
    (tick used : UInt64) : Rooted b (t.useName k n tick used) l := by
  refine h.of_text (fun j => ?_) rfl (List.Subset.refl _)
  show ((t.names.insert k { n with tick := tick, noted := used :: n.noted }).lookup j).map Name.text
    = t.text j
  rw [Finmap.lookup_insert_eq, RegistryIoTable.text]
  split
  · next he => rw [he, hn]; rfl
  · rfl

/-- An element without a token joins the queue. -/
theorem append (h : Rooted b t l) (h0 : d.token = 0)
    (hd : d.IsRelative → isToken d.waiting = false ∧ t.text d.event.baseObject = none
      ∧ b.heldAt d.event.baseObject d.event.stamp = b.holder d.event.baseObject) :
    Rooted b t (l ++ [d]) where
  latest := by
    refine h.latest.append (fun x _ hx => hx.trans h0) (fun hne => absurd h0 hne) fun hk => ?_
    rw [h0] at hk
    exact absurd hk (h.latest.pending _)
  based := by
    refine h.based.append hd fun x _ _ ht htoken => ?_
    rw [← htoken, h0] at ht
    exact absurd ht (by decide)

/-- An operation waits, or is counted. -/
theorem defer_operation (h : Rooted b t t.deferred) (ho : e.isOpen = false) (waiting : UInt64) :
    Rooted b (t.defer env e pid time tick waiting 0)
      (t.defer env e pid time tick waiting 0).deferred := by
  unfold RegistryIoTable.defer
  split
  · rw [if_neg (by simp [ho])]
    split
    · exact h.count_operation ho true
    · exact h.count_operation ho true
  · refine (h.append rfl fun hr => ?_).of_text (fun _ => rfl) rfl (List.Subset.refl _)
    rw [Deferred.IsRelative, ho] at hr
    exact absurd hr.1 (by simp)

theorem onOperation (h : Rooted b t t.deferred) (ho : e.isOpen = false) :
    Rooted b (t.onOperation env e pid time tick)
      (t.onOperation env e pid time tick).deferred := by
  unfold RegistryIoTable.onOperation
  split
  · next n hn => exact (h.useName hn tick tick).count_operation ho true
  · split
    · exact h.defer_operation ho _
    · split
      · exact h.count_operation ho true
      · exact h.defer_operation ho _

/-- `FlushWaiting`, where what it counts names no base but as the base's holder, and no relative
open waits on the token of the address. -/
theorem newKeyObject {object : UInt64} {stamp : ℤ} {next : UInt64} (h : Rooted b t t.deferred)
    (hq : Ordered t.deferred next)
    (hflush : ∀ d ∈ t.deferred, RegistryIoTable.flushes object stamp d = true →
      d.event.isOpen = true → isFailure d.event.status = false →
        IsBase t.deferred d.event.keyObject → b.holder d.event.keyObject = some d.event)
    (hno : ∀ d ∈ t.deferred, d.IsRelative → d.event.baseObject = object →
      isToken d.waiting = false) :
    Rooted b (t.newKeyObject env object stamp) (t.newKeyObject env object stamp).deferred := by
  unfold RegistryIoTable.newKeyObject RegistryIoTable.flushWaiting
  split
  · exact h
  · have hforget : ∀ {s s' : RegistryIoTable} {q : List Deferred}, Rooted b s q →
        q ⊆ t.deferred → (∀ k, s'.text k = s.text k) →
          s'.pendingOpens = s.pendingOpens.erase object → s'.counted = s.counted →
            Rooted b s' q := by
      intro s s' q hs hsub htext hp hcounted
      refine ⟨hs.latest.forget fun k v hk => ?_,
        hs.based.unpend (fun d hd => hno d (hsub hd)) htext hp hcounted⟩
      rw [hp, Finmap.lookup_erase_eq] at hk
      split at hk
      · exact absurd hk nofun
      · exact hk
    split
    · exact hforget h (List.Subset.refl _) (fun _ => rfl) rfl rfl
    · have hsweep : Rooted b (t.flushSweep env object stamp).1 (t.flushSweep env object stamp).2
          ∧ (t.flushSweep env object stamp).2 ⊆ t.deferred := by
        refine RegistryIoTable.flushSweep_invariant
          (P := fun s q => Rooted b s q ∧ q ⊆ t.deferred)
          ⟨h.of_text (fun _ => rfl) rfl (List.Subset.refl _), List.Subset.refl _⟩ ?_
        rintro s kept d rest ⟨hs, hsub⟩ hwaiting hstamp
        have hd : d ∈ t.deferred := hsub (by simp)
        refine ⟨?_, fun x hx => hsub (mem_skip hx)⟩
        have hrest : Rooted b s (kept ++ rest) :=
          hs.sublist ((List.Sublist.refl kept).append (List.sublist_cons_self d rest))
        have hcount : Rooted b (s.count env d.event
            (if d.event.isOpen then s.unnamedBase object d.event.name else []) d.pid d.time d.tick
            true) (kept ++ rest) := by
          refine hrest.count true fun hn => ⟨(hq.addresses d hd).1, ?_⟩
          rintro ⟨x, hx, hr, hbase⟩
          simp only [RegistryEvent.names, Bool.and_eq_true, Bool.not_eq_true'] at hn
          refine hflush d hd ?_ hn.1.1.1.1 hn.2 ⟨x, hsub (mem_skip hx), hr, hbase⟩
          simp [RegistryIoTable.flushes, hwaiting, hstamp]
        exact hcount.of_text (fun _ => rfl) rfl (List.Subset.refl _)
      exact hforget hsweep.1 hsweep.2 (fun _ => rfl) rfl rfl

/-- An open that waited is counted. -/
theorem applied {kept rest : List Deferred} {next : UInt64} {x : Deferred}
    (h : Rooted b t (kept ++ x :: rest)) (hq : Ordered (kept ++ x :: rest) next) (hne : name ≠ [])
    (htext : ∀ k, t'.text k = if x.token ≠ 0 ∧ k = x.token then some name
      else if x.event.names name
          (decide (t.pendingOpens.lookup x.event.keyObject = some x.token)) = true
            ∧ k = x.event.keyObject then some name
      else t.text k)
    (hp : t'.pendingOpens = if x.token ≠ 0 ∧ t.pendingOpens.lookup x.event.keyObject = some x.token
      then t.pendingOpens.erase x.event.keyObject else t.pendingOpens)
    (hcounted : t'.counted = ⟨x.event, name, x.pid, x.time, x.tick⟩ :: t.counted) :
    Rooted b t' (kept ++ rest) where
  latest := by
    have hsub : (kept ++ rest).Sublist (kept ++ x :: rest) :=
      (List.Sublist.refl kept).append (List.sublist_cons_self x rest)
    refine (h.latest.sublist hsub).forget fun k v hk => ?_
    rw [hp] at hk
    split at hk
    · rw [Finmap.lookup_erase_eq] at hk
      split at hk
      · exact absurd hk nofun
      · exact hk
    · exact hk
  based := h.based.applied h.latest hq hne htext hp hcounted

/-- A successful open of a key object is delivered, and counted at once. -/
theorem count_open (h : Rooted b t t.deferred) (hnames : e.names name true = true)
    (ha : isToken e.keyObject = false) (hp : t.pendingOpens.lookup e.keyObject = none)
    (hbase : ∀ d ∈ t.deferred, d.IsRelative → d.event.baseObject = e.keyObject →
      isToken d.waiting = false ∧ (b.deliver e).heldAt e.keyObject d.event.stamp = some e) :
    Rooted (b.deliver e) (t.count env e name pid time tick true) t.deferred where
  latest := (h.latest.deliver hp).forget fun _ _ hk => hk
  based := by
    have herased : Based (b.deliver e) { t with names := t.names.erase e.keyObject } t.deferred :=
      h.based.deliver ha hbase (fun _ => text_erase) rfl rfl
    refine herased.rename (List.subset_cons_self _ _) rfl fun k => ?_
    rw [RegistryIoTable.count_text, text_erase]
    by_cases hk : k = e.keyObject
    · rw [if_pos ⟨hnames, hk⟩, hk]
      refine Or.inr ⟨ha, name, rfl, fun _ => ?_⟩
      exact Known.of_holder BaseHistory.holder_deliver_self ⟨_, List.mem_cons_self, rfl, rfl⟩
    · rw [if_neg fun hc => hk hc.2, if_neg hk]
      exact Or.inl rfl

/-- An open waits, or is counted at once where too many wait. -/
theorem defer {waiting token next : UInt64}
    (h : Rooted b t (t.deferred ++ [⟨e, pid, time, tick, waiting, token⟩]))
    (hq : Ordered (t.deferred ++ [⟨e, pid, time, tick, waiting, token⟩]) next)
    (ho : e.isOpen = true) (hpending : ∀ name, e.names name true = true →
      t.pendingOpens.lookup e.keyObject = some token) :
    Rooted b (t.defer env e pid time tick waiting token)
      (t.defer env e pid time tick waiting token).deferred := by
  unfold RegistryIoTable.defer
  by_cases hfull : t.deferred.length ≥ maxDeferred
  · rw [if_pos hfull, if_pos ho]
    dsimp only
    rw [RegistryIoTable.nameToken_deferred, RegistryIoTable.count_deferred]
    have hne : t.unnamedBase waiting e.name ≠ [] := RegistryIoTable.unnamedBase_ne_nil _ _
    have hnames : e.names (t.unnamedBase waiting e.name) true = e.names
        (t.unnamedBase waiting e.name)
          (decide (t.pendingOpens.lookup e.keyObject = some token)) := by
      by_cases hn : e.names (t.unnamedBase waiting e.name) true = true
      · rw [hpending _ hn, decide_eq_true rfl]
      · rw [Bool.eq_iff_iff]
        exact iff_of_false hn fun hnames => hn (RegistryEvent.names_iff.mp hnames).2
    have happlied : Rooted b
        ((t.count env e (t.unnamedBase waiting e.name) pid time tick true).nameToken
          ⟨e, pid, time, tick, waiting, token⟩ (t.unnamedBase waiting e.name) tick)
        (t.deferred ++ []) := by
      refine h.applied hq hne (fun k => ?_) ?_ ?_
      · rw [nameToken_text, RegistryIoTable.count_text, hnames]
      · rw [RegistryIoTable.nameToken_pendingOpens]
        rfl
      · rw [RegistryIoTable.nameToken_counted]
        rfl
    rw [List.append_nil] at happlied
    exact happlied
  · rw [if_neg hfull]
    exact h.of_text (fun _ => rfl) rfl (List.Subset.refl _)

/-- A successful open of a key object is delivered: what waits on the address waits on its token,
and the relative opens among it are to be named after the address. -/
theorem pend (h : Rooted b t t.deferred) (hq : Ordered t.deferred t.nextToken)
    (hfresh : Fresh t) (ha : isToken e.keyObject = false) (ht : isToken t.nextToken = true)
    (hp : t.pendingOpens.lookup e.keyObject = none)
    (hbase : ∀ d ∈ t.deferred, d.IsRelative → d.event.baseObject = e.keyObject →
      isToken d.waiting = false ∧ (b.deliver e).heldAt e.keyObject d.event.stamp = some e) :
    Rooted (b.deliver e) ((t.pend e.keyObject).retarget e.keyObject e.stamp t.nextToken)
        ((t.pend e.keyObject).retarget e.keyObject e.stamp t.nextToken).deferred
      ∧ ∀ y ∈ ((t.pend e.keyObject).retarget e.keyObject e.stamp t.nextToken).deferred,
        y.token ≠ t.nextToken ∧ (y.IsRelative → y.waiting = t.nextToken →
          y.event.baseObject = e.keyObject) := by
  obtain ⟨f, hdeferred, hf⟩ := @RegistryIoTable.retarget_deferred (t.pend e.keyObject) e.keyObject
    e.stamp t.nextToken
  have hfree : ∀ x ∈ t.deferred, x.token ≠ t.nextToken := fun x hx => hq.token_ne_next ht hx
  have hnone : RegistryIoTable.text { t with names := t.names.erase e.keyObject } t.nextToken
      = none := by
    rw [text_erase]
    split
    · rfl
    · by_contra hsome
      have hmem : t.nextToken ∈ t.names := by
        rw [RegistryIoTable.text, ← Ne, Option.ne_none_iff_isSome, Option.isSome_map] at hsome
        exact Finmap.lookup_isSome.mp hsome
      exact absurd (hfresh.names _ hmem ht) (UInt64.lt_irrefl _)
  have hpend : ((t.pend e.keyObject).retarget e.keyObject e.stamp t.nextToken).pendingOpens
      = t.pendingOpens.insert e.keyObject t.nextToken := by
    rw [RegistryIoTable.retarget_pendingOpens]
    rfl
  rw [hdeferred]
  refine ⟨⟨(h.latest.deliver hp).take ht hfree (fun x => ⟨(hf x).1, (hf x).2.1⟩) hpend, ?_⟩, ?_⟩
  · have hdelivered : Based (b.deliver e) { t with names := t.names.erase e.keyObject }
        t.deferred := h.based.deliver ha hbase (fun _ => text_erase) rfl rfl
    refine hdelivered.retarget hnone hfree (fun d hd hr he => (hbase d hd hr he).1)
      (fun x _ => ⟨(hf x).1, (hf x).2.1, (hf x).2.2.imp_right fun hr => hr.1⟩) (fun k => ?_)
      hpend ?_
    · rw [RegistryIoTable.text, RegistryIoTable.retarget_names]
      rfl
    · rw [RegistryIoTable.retarget_counted]
      rfl
  · intro y hy
    obtain ⟨z, hz, rfl⟩ := List.mem_map.mp hy
    obtain ⟨hevent, htoken, hwaiting⟩ := hf z
    rw [Deferred.IsRelative, hevent, htoken]
    refine ⟨hfree z hz, fun hr hw => ?_⟩
    -- it waited on an address, its base's
    rcases hwaiting with hsame | ⟨-, hretargets⟩
    · rw [hsame] at hw
      rcases hq.waits z hz hr.1 with hwz | ⟨-, hlt⟩
      · rw [← hw, hwz, (hq.addresses z hz).2] at ht
        exact absurd ht (by simp)
      · rw [hw] at hlt
        exact absurd hlt (UInt64.lt_irrefl _)
    · simp only [RegistryIoTable.retargets, Bool.and_eq_true, decide_eq_true_eq] at hretargets
      rcases hq.waits z hz hr.1 with hwz | ⟨htz, -⟩
      · rw [← hwz]
        exact hretargets.1
      · rw [hretargets.1, ha] at htz
        exact absurd htz (by simp)

/-- That open waits for its base. -/
theorem deferOpen (h : Rooted b t t.deferred) (hq : Ordered t.deferred t.nextToken)
    (hfresh : Fresh t) (ho : e.isOpen = true) (hkey : e.keyObject ≠ 0)
    (hok : isFailure e.status = false)
    (ha : isToken e.keyObject = false ∧ isToken e.baseObject = false)
    (ht : isToken t.nextToken = true) (hp : t.pendingOpens.lookup e.keyObject = none)
    (hbase : ∀ d ∈ t.deferred, d.IsRelative → d.event.baseObject = e.keyObject →
      isToken d.waiting = false ∧ (b.deliver e).heldAt e.keyObject d.event.stamp = some e)
    (hself : e.baseObject ≠ e.keyObject ∧ t.text e.baseObject = none
      ∧ b.heldAt e.baseObject e.stamp = b.holder e.baseObject) :
    Rooted (b.deliver e) (t.deferOpen env e pid time tick)
      (t.deferOpen env e pid time tick).deferred := by
  obtain ⟨hpended, hothers⟩ := h.pend hq hfresh ha.1 ht hp hbase
  have hlookup : ((t.pend e.keyObject).retarget e.keyObject e.stamp t.nextToken).pendingOpens.lookup
      e.keyObject = some t.nextToken := by
    rw [RegistryIoTable.retarget_pendingOpens]
    exact Finmap.lookup_insert _
  have hordered : Ordered
      (((t.pend e.keyObject).retarget e.keyObject e.stamp t.nextToken).deferred
        ++ [⟨e, pid, time, tick, e.baseObject, t.nextToken⟩]) (t.nextToken + 1) := by
    obtain ⟨f, hdeferred, hf⟩ := @RegistryIoTable.retarget_deferred (t.pend e.keyObject)
      e.keyObject e.stamp t.nextToken
    rw [hdeferred]
    refine Ordered.append (hq.take_token ht fun x => ?_) (fun _ => rfl)
      (Or.inr ⟨ht, lt_succ_of_isToken ht⟩) ha
    exact ⟨(hf x).1, (hf x).2.1, (hf x).2.2.imp_right fun hr => hr.1⟩
  unfold RegistryIoTable.deferOpen
  rw [if_pos (by simp [hkey, hok])]
  refine defer ⟨?_, ?_⟩ hordered ho fun _ _ => hlookup
  · exact hpended.latest.append (fun y hy htoken => absurd htoken (hothers y hy).1)
      (fun _ => ⟨ho, hkey, hok⟩) fun _ => BaseHistory.holder_deliver_self
  · refine hpended.based.append (fun _ => ⟨ha.2, ?_, ?_⟩) fun y hy hr _ htoken => ?_
    · rw [RegistryIoTable.text, RegistryIoTable.retarget_names]
      exact text_erase.trans ((if_neg hself.1).trans hself.2.1)
    · show (b.deliver e).heldAt e.baseObject e.stamp = (b.deliver e).holder e.baseObject
      rw [BaseHistory.heldAt_deliver_of_ne hself.1, BaseHistory.holder_deliver_of_ne hself.1]
      exact hself.2.2
    · have he := (hothers y hy).2 hr htoken.symm
      exact ⟨he.symm, by rw [he]; exact hlookup⟩

/-- An open that names no key object. -/
theorem defer_nameless (h : Rooted b t t.deferred) {next : UInt64} (hq : Ordered t.deferred next)
    (ho : e.isOpen = true) (hno : (e.keyObject ≠ 0 && !isFailure e.status) = false)
    (ha : isToken e.keyObject = false ∧ isToken e.baseObject = false)
    (hbase : t.text e.baseObject = none
      ∧ b.heldAt e.baseObject e.stamp = b.holder e.baseObject) :
    Rooted b (t.defer env e pid time tick e.baseObject 0)
      (t.defer env e pid time tick e.baseObject 0).deferred := by
  refine defer (h.append rfl fun _ => ⟨ha.2, hbase⟩)
    (hq.append (fun _ => rfl) (Or.inl rfl) ha) ho fun name hn => ?_
  simp only [RegistryEvent.names, Bool.and_eq_true, Bool.and_true] at hn
  rw [hn.1.1.2, hn.2] at hno
  exact absurd hno (by simp)

/-- Counting loses no name. -/
theorem text_of_count {k : UInt64} {x : Bool}
    (h : (t.count env e name pid time tick x).text k = none) : t.text k = none := by
  rw [RegistryIoTable.count_text] at h
  split at h
  · exact absurd h nofun
  · exact h

/-- Nor does a flush. -/
theorem text_newKeyObject {object k : UInt64} {stamp : ℤ}
    (h : (t.newKeyObject env object stamp).text k = none) : t.text k = none := by
  unfold RegistryIoTable.newKeyObject RegistryIoTable.flushWaiting at h
  split at h
  · exact h
  · split at h
    · exact h
    · have hsweep : (t.flushSweep env object stamp).1.text k = none → t.text k = none := by
        refine RegistryIoTable.flushSweep_invariant
          (P := fun s _ => s.text k = none → t.text k = none) (fun hk => hk) ?_
        intro s kept d rest hs _ _ hk
        have hcount : (s.count env d.event
            (if d.event.isOpen then s.unnamedBase object d.event.name else []) d.pid d.time d.tick
            true).text k = none := hk
        exact hs (text_of_count hcount)
      exact hsweep h

/-- An open that has to wait is a relative one, and its base has no name. -/
theorem openName_none (h : t.openName env e = none) :
    e.name.head? ≠ some backslash ∧ t.text e.baseObject = none := by
  unfold RegistryIoTable.openName at h
  split at h
  · cases h
  · next hrelative =>
    refine ⟨hrelative, ?_⟩
    split at h
    · next hnone => rw [RegistryIoTable.text, hnone]; rfl
    · cases h

/-- A successful open of a key object, after the flush. -/
theorem onOpen_takes {s : RegistryIoTable} (hs : t.newKeyObject env e.keyObject e.stamp = s)
    (h : Rooted b s s.deferred) (hq : Ordered s.deferred s.nextToken) (hfresh : Fresh s)
    (htexts : ∀ k n, s.names.lookup k = some n → n.text ≠ []) (ho : e.isOpen = true)
    (hkey : e.keyObject ≠ 0) (hok : isFailure e.status = false)
    (ha : isToken e.keyObject = false ∧ isToken e.baseObject = false)
    (ht : (t.onOpen env e pid time tick).nextToken ≠ s.nextToken → isToken s.nextToken = true)
    (hp : s.pendingOpens.lookup e.keyObject = none)
    (hbase : ∀ d ∈ s.deferred, d.IsRelative → d.event.baseObject = e.keyObject →
      isToken d.waiting = false ∧ (b.deliver e).heldAt e.keyObject d.event.stamp = some e)
    (hself : s.openName env e = none → e.baseObject ≠ e.keyObject
      ∧ b.heldAt e.baseObject e.stamp = b.holder e.baseObject) :
    Rooted (b.deliver e) (t.onOpen env e pid time tick)
      (t.onOpen env e pid time tick).deferred := by
  have hnames : ∀ {name : WString}, name ≠ [] → e.names name true = true := by
    intro name hne
    simp [RegistryEvent.names, ho, hkey, hok, hne]
  unfold RegistryIoTable.onOpen at ht ⊢
  rw [hs] at ht ⊢
  dsimp only at ht ⊢
  cases hname : s.openName env e with
  | some name =>
    exact h.count_open (hnames (RegistryIoTable.openName_ne_nil htexts hname)) ha.1 hp hbase
  | none =>
    dsimp only
    by_cases hg : s.gaveUp e.baseObject = true
    · rw [if_pos hg]
      exact h.count_open (hnames (RegistryIoTable.unnamedBase_ne_nil _ _)) ha.1 hp hbase
    · rw [if_neg hg]
      simp only [hname] at ht
      rw [if_neg hg, RegistryIoTable.deferOpen_nextToken, if_pos (by simp [hkey, hok])] at ht
      obtain ⟨hne, hheld⟩ := hself hname
      exact h.deferOpen hq hfresh ho hkey hok ha (ht (by simp)) hp hbase
        ⟨hne, (openName_none hname).2, hheld⟩

/-- Another open, after the flush. -/
theorem onOpen_nameless {s : RegistryIoTable} (hs : t.newKeyObject env e.keyObject e.stamp = s)
    (h : Rooted b s s.deferred) (hq : Ordered s.deferred s.nextToken) (ho : e.isOpen = true)
    (hno : (e.keyObject ≠ 0 && !isFailure e.status) = false)
    (ha : isToken e.keyObject = false ∧ isToken e.baseObject = false)
    (hself : s.openName env e = none → b.heldAt e.baseObject e.stamp = b.holder e.baseObject) :
    Rooted b (t.onOpen env e pid time tick) (t.onOpen env e pid time tick).deferred := by
  have hnames : ∀ {name : WString}, ¬ e.names name true = true := by
    intro name hn
    simp only [RegistryEvent.names, Bool.and_eq_true, Bool.and_true] at hn
    rw [hn.1.1.2, hn.2] at hno
    exact absurd hno (by simp)
  unfold RegistryIoTable.onOpen
  rw [hs]
  dsimp only
  cases hname : s.openName env e with
  | some name => exact h.count true fun hn => absurd hn hnames
  | none =>
    dsimp only
    split
    · exact h.count true fun hn => absurd hn hnames
    · rw [RegistryIoTable.deferOpen, if_neg (by rw [hno]; simp)]
      exact h.defer_nameless hq ho hno ha ⟨(openName_none hname).2, hself hname⟩

theorem onOpen {f : Recorded} (h : Rooted f.bases f.table f.table.deferred)
    (hq : Orderly f.table) (ho : e.isOpen = true) (hr : isRetried e.status = false)
    (ha : isToken e.keyObject = false ∧ isToken e.baseObject = false)
    (ht : (f.table.onOpen env e pid time tick).nextToken ≠ f.table.nextToken →
      isToken f.table.nextToken = true)
    (hkeeps : (e.keyObject ≠ 0 → FlushKeepsBases f e ∧ OpensInOrder f e) ∧ ComesInOrder f e) :
    Rooted (if e.opens = true ∧ e.keyObject ≠ 0 then f.bases.deliver e else f.bases)
      (f.table.onOpen env e pid time tick) (f.table.onOpen env e pid time tick).deferred := by
  have hflushed : Rooted f.bases (f.table.newKeyObject env e.keyObject e.stamp)
      (f.table.newKeyObject env e.keyObject e.stamp).deferred := by
    by_cases h0 : e.keyObject = 0
    · unfold RegistryIoTable.newKeyObject
      rw [if_pos h0]
      exact h
    · exact h.newKeyObject hq.ordered (hkeeps.1 h0).1 fun d hd hrel he =>
        ((hkeeps.1 h0).2 d hd hrel he).1
  have hnext : (f.table.newKeyObject env e.keyObject e.stamp).nextToken = f.table.nextToken :=
    RegistryIoTable.newKeyObject_nextToken _ _
  have hordered : Ordered (f.table.newKeyObject env e.keyObject e.stamp).deferred
      (f.table.newKeyObject env e.keyObject e.stamp).nextToken := by
    rw [hnext]
    exact hq.ordered.sublist (RegistryIoTable.newKeyObject_sublist _ _)
  have hself : (f.table.newKeyObject env e.keyObject e.stamp).openName env e = none →
      e.baseObject ≠ e.keyObject
        ∧ f.bases.heldAt e.baseObject e.stamp = f.bases.holder e.baseObject := fun hn =>
    hkeeps.2 (openName_none hn).1 (text_newKeyObject (openName_none hn).2)
  by_cases hn : (e.keyObject ≠ 0 && !isFailure e.status) = true
  · simp only [Bool.and_eq_true, Bool.not_eq_true', decide_eq_true_eq] at hn
    obtain ⟨hkey, hok⟩ := hn
    have hopens : e.opens = true := by simp [RegistryEvent.opens, ho, hr, hok]
    rw [if_pos ⟨hopens, hkey⟩]
    refine hflushed.onOpen_takes rfl hordered (hq.fresh.newKeyObject hq.ordered ha.1)
      (hq.timed.newKeyObject _ _).texts ho hkey hok ha (by rw [hnext]; exact ht)
      (newKeyObject_pending hkey _) (fun d hd hrel he => ?_) hself
    -- what is left waits on the address from the open's stamp on
    have hmem := (RegistryIoTable.newKeyObject_sublist _ _).subset hd
    obtain ⟨hno, hheld⟩ := (hkeeps.1 hkey).2 d hmem hrel he
    refine ⟨hno, hheld hopens (newKeyObject_stamp hq.tallied hkey _ d hd ?_)⟩
    rw [← he]
    refine (hq.ordered.waits d hmem hrel.1).resolve_right fun hc => ?_
    rw [hno] at hc
    exact absurd hc.1 (by simp)
  · have hno : (e.keyObject ≠ 0 && !isFailure e.status) = false := by simpa using hn
    have hnot : ¬ (e.opens = true ∧ e.keyObject ≠ 0) := by
      rintro ⟨hopens, h0⟩
      simp only [RegistryEvent.opens, Bool.and_eq_true] at hopens
      exact hn (by simp [h0, hopens.2])
    rw [if_neg hnot]
    exact hflushed.onOpen_nameless rfl hordered ho hno ha fun hname => (hself hname).2

theorem counted_subset_applyOne : t.counted ⊆ (t.applyOne env d).counted := by
  by_cases ho : d.event.isOpen = true
  · rw [applyOne_open_counted ho]
    exact List.subset_cons_self _ _
  · unfold RegistryIoTable.applyOne
    dsimp only
    rw [if_neg ho]
    unfold RegistryIoTable.applyOperation
    split
    · exact List.subset_cons_self _ _
    · exact List.subset_cons_self _ _

/-- `ApplyDeferred` counts one operation that waited. -/
theorem applyOne {kept rest : List Deferred} {next : UInt64} (h : Rooted b t (kept ++ d :: rest))
    (hq : Ordered (kept ++ d :: rest) next)
    (htexts : ∀ k n, t.names.lookup k = some n → n.text ≠ []) :
    Rooted b (t.applyOne env d) (kept ++ rest) := by
  by_cases ho : d.event.isOpen = true
  · exact h.applied hq (RegistryIoTable.appliedName_ne_nil htexts) (fun _ => applyOne_open_text ho)
      (applyOne_open_pending ho) (applyOne_open_counted ho t)
  · refine (h.sublist ((List.Sublist.refl kept).append (List.sublist_cons_self d rest))).of_text
      (fun _ => applyOne_operation_text (by simpa using ho)) (t.applyOne_operation env ho).2
      counted_subset_applyOne

/-- The resolver names a key object: a base as its holder's open is counted. -/
theorem setName {object : UInt64} (h : Rooted b t t.deferred) (ha : isToken object = false)
    (hname : IsBase t.deferred object → ∀ o, b.holder object = some o →
      CountedAs t.counted o (env.registryName name)) :
    Rooted (b.answer object (env.registryName name)) (t.setName env object name tick)
      t.deferred where
  latest := (@Latest.of_opened _ _ _ (b.answer object (env.registryName name)) h.latest rfl).forget
    fun _ _ hk => hk
  based := by
    have htext : ∀ k, (t.setName env object name tick).text k
        = if k = object then some (env.registryName name) else t.text k := by
      intro k
      show ((t.names.insert object _).lookup k).map Name.text = _
      rw [Finmap.lookup_insert_eq]
      split
      · rfl
      · rfl
    refine ⟨fun d hd hr n hn => ?_, h.based.held, fun d hd hr ht => ?_⟩
    · rw [htext] at hn
      split at hn
      · next he =>
        rw [← Option.some.inj hn, he]
        cases hholder : b.holder object with
        | some o => exact Known.of_holder hholder (hname ⟨d, hd, hr, he⟩ o hholder)
        | none =>
          have hans : (b.answer object (env.registryName name)).answered object
              = some (env.registryName name) := Function.update_self ..
          have hnone : (b.answer object (env.registryName name)).holder object = none := hholder
          rw [Known, hnone]
          exact hans
      · next hne =>
        have hans : (b.answer object (env.registryName name)).answered d.event.baseObject
            = b.answered d.event.baseObject := Function.update_of_ne hne _ _
        have hknown := h.based.named d hd hr n hn
        rw [Known] at hknown ⊢
        rw [hans]
        exact hknown
    · obtain ⟨hnamed, hopen⟩ := h.based.settled d hd hr ht
      refine ⟨fun hw => ?_, hopen⟩
      have hne : d.waiting ≠ object := by
        intro he
        rw [he, ha] at ht
        exact absurd ht (by simp)
      rw [htext, if_neg hne] at hw
      rw [htext]
      split
      · simp
      · exact hnamed hw

/-- Pruning, when no base loses its name whose token keeps its own. -/
theorem prune (h : Rooted b t t.deferred)
    (hkeeps : ∀ d ∈ t.deferred, d.IsRelative → isToken d.waiting = true →
      d.waiting ∈ (t.prune tick).names → d.event.baseObject ∈ (t.prune tick).names) :
    Rooted b (t.prune tick) t.deferred where
  latest := h.latest.forget fun _ _ hk => hk
  based := by
    have htext : ∀ k n, (t.prune tick).text k = some n → t.text k = some n := by
      intro k n hn
      obtain ⟨m, hm, rfl⟩ := Option.map_eq_some_iff.mp hn
      rw [RegistryIoTable.text, Finmap.of_lookup_eraseIf hm]
      rfl
    have hnamed : ∀ k, (t.prune tick).text k ≠ none ↔ k ∈ (t.prune tick).names := by
      intro k
      rw [RegistryIoTable.text, Option.ne_none_iff_isSome, Option.isSome_map, Finmap.lookup_isSome]
    refine ⟨fun d hd hr n hn => h.based.named d hd hr n (htext _ n hn), h.based.held,
      fun d hd hr ht => ⟨fun hw => ?_, (h.based.settled d hd hr ht).2⟩⟩
    exact (hnamed _).mpr (hkeeps d hd hr ht ((hnamed _).mp hw))

theorem clear (h : Rooted b t l) : Rooted b t.clear [] where
  latest := (h.latest.sublist (List.nil_sublist l)).forget fun k v hk =>
    absurd (hk.symm.trans (Finmap.lookup_empty k)) nofun
  based := by
    refine ⟨fun d hd => absurd hd List.not_mem_nil, fun d hd => absurd hd List.not_mem_nil,
      fun d hd => absurd hd List.not_mem_nil⟩

end Rooted

/-! ## the loop of ApplyDeferred -/

/-- What the loop keeps. -/
structure Looped (b : BaseHistory) (next : UInt64) (t : RegistryIoTable) (l : List Deferred) :
    Prop where
  rooted : Rooted b t l
  ordered : Ordered l next
  timed : Timed (fun _ => True) t l

section Loop

variable {env : Env} {b : BaseHistory} {next : UInt64} {t : RegistryIoTable} {d : Deferred}
  {kept pre post rest : List Deferred}

theorem Looped.applyOne (h : Looped b next t (kept ++ d :: rest)) :
    Looped b next (t.applyOne env d) (kept ++ rest) where
  rooted := h.rooted.applyOne h.ordered h.timed.texts
  ordered := h.ordered.sublist ((List.Sublist.refl kept).append (List.sublist_cons_self d rest))
  timed := h.timed.applyOne

theorem Looped.applyDeferred (h : Looped b next t t.deferred) :
    Rooted b (t.applyDeferred env) (t.applyDeferred env).deferred := by
  have hsweep : Looped b next (t.applySweep env).1 (t.applySweep env).2 :=
    RegistryIoTable.applySweep_invariant h fun _ _ _ _ hs _ => hs.applyOne
  exact hsweep.rooted.of_text (fun _ => rfl) rfl (List.Subset.refl _)

/-- The loop when it has gone over the first elements. -/
theorem Looped.reached (h : Looped b next t (pre ++ post)) :
    ∃ q, Looped b next (t.reached env pre) (q ++ post) := by
  refine ⟨_, @sweep_invariant _ _ RegistryIoTable.ready (fun t d => t.applyOne env d)
    (fun s q => Looped b next s (q ++ post)) ?_ t [] pre h⟩
  intro s kept x rest hs _
  rw [List.append_assoc] at hs ⊢
  exact hs.applyOne

theorem appliedName_of_text {base : WString} (hr : d.IsRelative)
    (h : t.text d.event.baseObject = some base) :
    t.appliedName env d = relativeName base d.event.name := by
  obtain ⟨n, hn, rfl⟩ := Option.map_eq_some_iff.mp h
  rw [RegistryIoTable.appliedName, RegistryIoTable.openName, if_neg hr.2, hn]
  rfl

theorem appliedName_of_none (hr : d.IsRelative) (h : t.text d.event.baseObject = none) :
    t.appliedName env d = t.unnamedBase d.event.baseObject d.event.name := by
  rw [RegistryIoTable.appliedName, RegistryIoTable.openName, if_neg hr.2,
    Option.map_eq_none_iff.mp h]
  rfl

/-- One relative open. -/
theorem Looped.named (h : Looped b next t (kept ++ d :: rest)) (hr : d.IsRelative) :
    NamedByBase b t.counted d.event (t.appliedName env d)
      ∨ t.appliedName env d = t.unnamedBase d.event.baseObject d.event.name
        ∧ t.text d.waiting = none := by
  have hd : d ∈ kept ++ d :: rest := by simp
  cases hbase : t.text d.event.baseObject with
  | some base =>
    rw [appliedName_of_text hr hbase]
    have hknown := h.rooted.based.named d hd hr base hbase
    have hheld := h.rooted.based.held d hd hr
    refine Or.inl ?_
    cases hholder : b.holder d.event.baseObject with
    | some o =>
      rw [Known, hholder] at hknown
      rw [NamedByBase, hheld, hholder]
      obtain ⟨c, hc, he, hname⟩ := hknown
      exact ⟨c, hc, he, by rw [hname]⟩
    | none =>
      rw [Known, hholder] at hknown
      rw [NamedByBase, hheld, hholder]
      exact ⟨base, hknown, rfl⟩
  | none =>
    refine Or.inr ⟨appliedName_of_none hr hbase, ?_⟩
    rcases h.ordered.waits d hd hr.1 with hw | ⟨ht, -⟩
    · rw [hw]
      exact hbase
    · -- a token that is named has named its address
      by_contra hw
      exact (h.rooted.based.settled d hd hr ht).1 hw hbase

end Loop

/-! ## runs -/

/-- What every step keeps. -/
structure BasesKept (f : Recorded) : Prop where
  orderly : Orderly f.table
  rooted : Rooted f.bases f.table f.table.deferred

namespace BasesKept

variable {env : Env} {f : Recorded} {c : Call}

theorem start : BasesKept {} := ⟨Orderly.start, Latest.start, Based.start⟩

theorem looped (h : BasesKept f) :
    Looped f.bases f.table.nextToken f.table f.table.deferred :=
  ⟨h.rooted, h.orderly.ordered, h.orderly.timed⟩

/-- **One step.** -/
theorem step (h : BasesKept f) (hc : c.Proper) (ht : TokenInRange env f.table c)
    (hk : KeepsBases env f c) : BasesKept (f.step env c) := by
  refine ⟨h.orderly.step hc ht, ?_⟩
  have hnone : ∀ {e : RegistryEvent}, e.isOpen = false → ¬ e.opens = true := by
    intro e ho hopens
    simp [RegistryEvent.opens, ho] at hopens
  cases c with
  | onEvent e pid time tick =>
    show Rooted (if e.opens = true ∧ e.keyObject ≠ 0 then f.bases.deliver e else f.bases)
      (f.table.onEvent env e pid time tick) (f.table.onEvent env e pid time tick).deferred
    rw [TokenInRange, RegistryIoTable.step] at ht
    unfold RegistryIoTable.onEvent at ht ⊢
    by_cases hi : e.operation.isIgnored = true
    · rw [if_pos hi, if_neg fun hopens => hnone (RegistryEvent.isOpen_of_ignored hi) hopens.1]
      exact h.rooted
    · rw [if_neg hi] at ht ⊢
      by_cases ho : e.isOpen = true
      · rw [if_pos ho] at ht ⊢
        by_cases hr : isRetried e.status = true
        · rw [if_pos hr, if_neg fun hopens => by simp [RegistryEvent.opens, hr] at hopens]
          exact h.rooted
        · rw [if_neg hr] at ht ⊢
          exact h.rooted.onOpen h.orderly ho (by simpa using hr) hc ht (hk ho (by simpa using hr))
      · have ho' : e.isOpen = false := by simpa using ho
        rw [if_neg ho, if_neg fun hopens => hnone ho' hopens.1]
        exact h.rooted.onOperation ho'
  | takeUnnamed => exact h.rooted.of_text (fun _ => rfl) rfl (List.Subset.refl _)
  | setName object name tick => exact h.rooted.setName hc.1 hk
  | nameFailed => exact h.rooted.of_text (fun _ => rfl) rfl (List.Subset.refl _)
  | applyDeferred => exact h.looped.applyDeferred
  | prune tick => exact h.rooted.prune hk
  | removeProcess => exact h.rooted.of_text (fun _ => rfl) rfl (List.Subset.refl _)
  | clear => exact h.rooted.clear

theorem law (h : BasesKept f) : OwnBases env f := by
  intro pre d post hdeferred hr _
  have hloop := h.looped
  rw [hdeferred] at hloop
  obtain ⟨q, hreached⟩ : ∃ q, Looped f.bases f.table.nextToken (f.table.reached env pre)
      (q ++ d :: post) := hloop.reached
  exact ⟨_, applyOne_open_counted hr.1 _, hreached.named hr⟩

end BasesKept

/--
**Each relative open is counted under the name of the key that held its base's address when it was
issued, or as an unnamed base's while what it waits on has no name**, in every run whose steps keep
the names of the bases waited for.
-/
theorem opens_keep_their_base (env : Env) (calls : List Call) (hc : ∀ c ∈ calls, c.Proper)
    (ht : Along (Recorded.step env) (fun f c => TokenInRange env f.table c) {} calls)
    (hk : Along (Recorded.step env) (KeepsBases env) {} calls) :
    Along (Recorded.step env) (OwnBaseLaw env) {} calls := by
  refine Along.mono_of_invariant BasesKept
    (fun f c h hok => h.step hok.1 hok.2.1 hok.2.2) (fun f c h _ => ?_) BasesKept.start
    ((along_of_forall hc).and (ht.and hk))
  cases c with
  | applyDeferred => exact h.law
  | _ => trivial

/-- A base's open waits and its own base is named: the relative open follows. -/
def baseFollows : List Call :=
  [ .onEvent { operation := .openKey, keyObject := 0x10, baseObject := 0x20, stamp := 5,
               name := wide "rel", serial := 0 } 7 1 1,
    .onEvent { operation := .openKey, keyObject := 0x20, baseObject := 0x30, stamp := 3,
               name := wide "sub", serial := 1 } 7 2 2,
    .takeUnnamed, .setName 0x30 (wide "\\REGISTRY\\MACHINE\\X") 3,
    .applyDeferred, .applyDeferred ]

theorem opens_keep_their_base_follows :
    Along (Recorded.step Env.ascii) (OwnBaseLaw Env.ascii) {} baseFollows :=
  opens_keep_their_base Env.ascii baseFollows (by decide) (by decide) (by decide)

/-- Another key is opened at the base's address while its open waits. -/
def baseTaken : List Call :=
  [ .onEvent { operation := .openKey, keyObject := 0x10, baseObject := 0x20, stamp := 5,
               name := wide "rel", serial := 0 } 7 1 1,
    .onEvent { operation := .openKey, keyObject := 0x20, baseObject := 0x30, stamp := 3,
               name := wide "sub", serial := 1 } 7 2 2,
    .onEvent { operation := .openKey, keyObject := 0x20, name := wide "\\B", stamp := 7,
               serial := 2 } 7 3 3,
    .takeUnnamed, .setName 0x30 (wide "\\REGISTRY\\MACHINE\\X") 4,
    .applyDeferred, .applyDeferred ]

/-- The relative open is counted under the other key's name. -/
theorem base_taken_misnames :
    ¬ ∀ (env : Env) (calls : List Call), (∀ c ∈ calls, c.Proper) →
      Along (Recorded.step env) (fun f c => TokenInRange env f.table c) {} calls →
        Along (Recorded.step env) (OwnBaseLaw env) {} calls := by
  intro hall
  have h := hall Env.ascii baseTaken (by decide) (by decide)
  obtain ⟨name, hcounted, hname⟩ := h.2.2.2.2.2.2.1 [] _ [] rfl ⟨rfl, by decide⟩ (by decide)
  have hb : name = wide "\\B\\rel" := by
    have hhead := congrArg (fun l : List Counted => l.head?.map Counted.name) hcounted
    exact Option.some.inj (hhead.symm.trans (show _ = some (wide "\\B\\rel") by decide))
  rw [hb] at hname
  rcases hname with hname | ⟨hname, -⟩
  · exact absurd hname (by decide)
  · exact absurd hname (by decide)

end WinSys.Registry
