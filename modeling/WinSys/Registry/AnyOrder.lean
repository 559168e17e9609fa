import WinSys.Registry.Reorder

/-!
# Delivery order does not matter

An open and the operations on its key object are delivered in some order, and passes of the
resolver count what waits. Whatever the order, all of them are counted under the open's name and
the rows' figures come out the same, as long as no row is pruned meanwhile, nothing that waits is
relative to the key object, and the resolver has no other name for it.

* `Scene`: the two deliveries and the passes
* `delivery_order_irrelevant`
-/

namespace WinSys.Registry

open Infra

/-- A session so far, an open with operations on its key object in two orders, and the passes of
the resolver afterwards. -/
structure Scene where
  calls : List Call
  first : Delivery
  second : Delivery
  /-- The earliest tick of the table's, and the latest before the passes. -/
  lo : UInt64
  now : UInt64
  passes : List ResolverPass

namespace Scene

variable (env : Env) (s : Scene)

def table : RegistryIoTable := RegistryIoTable.after env s.calls

def delivered (x : Delivery) : RegistryIoTable :=
  run (RegistryIoTable.step env) (s.table env) x.calls

/-- The table once the passes left nothing waiting. -/
def Settles (x : Delivery) (r : RegistryIoTable) : Prop :=
  Passes env s.passes (s.delivered env x) r ∧ r.deferred = []

/-- The table knows nothing of the key object, and has room for the open and the operations. -/
structure Admissible : Prop where
  proper : ∀ c ∈ s.calls, c.Proper
  tokens : Along (RegistryIoTable.step env) (TokenInRange env) {} s.calls
  token : isToken (s.table env).nextToken = true
  first : s.first.Valid
  second : s.second.Valid
  reorders : s.first.Reorders s.second
  unknown : Unknown (s.table env) s.first.object
  room : (s.table env).deferred.length + s.first.before.length + s.first.after.length
    < maxDeferred

/-- Everything that is not pruned yet is recent, and stays so during the passes. -/
structure Recent (idle : UInt64) : Prop where
  order : s.lo ≤ s.now
  table : Timed (InWindow s.lo s.now) (s.table env) (s.table env).deferred
  first : ∀ o ∈ s.first.operations, InWindow s.lo s.now o.tick
  second : ∀ o ∈ s.second.operations, InWindow s.lo s.now o.tick
  passes : InTime idle s.lo s.now s.passes

/-- If the open waits for another key object, no open that waits is relative to its own. -/
def Unrelated : Prop :=
  (s.table env).openedName env s.first.opened.event = none → s.first.base ≠ s.first.object →
    ∀ d ∈ (s.table env).deferred, d.IsRelative → d.event.baseObject ≠ s.first.object

/-- If the open names its key object at once, the resolver finds no other name for it. -/
def Answered : Prop :=
  ∀ name, (s.table env).openedName env s.first.opened.event = some name →
    ∀ p ∈ s.passes, ∀ n, p.text env s.first.object = some n → n = name

/-- Both orders come to the same: the open and the operations counted under one name, the same
counted besides, and the same figures. -/
def Same : Prop :=
  ∀ r r', s.Settles env s.first r → s.Settles env s.second r' →
    (∃ (name : WString) (others : Multiset Entry),
      (r.entries : Multiset Entry)
        = (s.first.operations.map (Operation.entry name) : Multiset Entry) + others
          + ((s.table env).entries : Multiset Entry)
      ∧ (r'.entries : Multiset Entry)
        = (s.second.operations.map (Operation.entry name) : Multiset Entry) + others
          + ((s.table env).entries : Multiset Entry))
    ∧ ∀ id, rowTallies r.rows id = rowTallies r'.rows id

end Scene

/-! ## after the deliveries -/

namespace Delivery.Reorders

variable {x y : Delivery}

theorem object (h : x.Reorders y) : x.object = y.object :=
  congrArg RegistryEvent.keyObject h.event

theorem base (h : x.Reorders y) : x.base = y.base := congrArg RegistryEvent.baseObject h.event

theorem length (h : x.Reorders y) :
    x.before.length + x.after.length = y.before.length + y.after.length := by
  have hlength := h.rest.length_eq
  simpa using hlength

/-- The same is counted, in whatever order. -/
theorem entries (h : x.Reorders y) (name : WString) :
    (x.operations.map (Operation.entry name) : Multiset Entry)
      = (y.operations.map (Operation.entry name) : Multiset Entry) := by
  have hrest : ∀ z : Delivery, (z.operations.map (Operation.entry name) : Multiset Entry)
      = {z.opened.entry name} + (((z.before ++ z.after).map fun o => (o.event, o.pid)).map
        fun p => (⟨p.1, name, p.2⟩ : Entry) : Multiset Entry) := by
    intro z
    rw [z.coe_operations, List.map_map, List.map_append, ← Multiset.coe_add]
    show (z.before.map (Operation.entry name) : Multiset Entry)
      + ({z.opened.entry name} + (z.after.map (Operation.entry name) : Multiset Entry))
        = {z.opened.entry name} + ((z.before.map (Operation.entry name) : Multiset Entry)
          + (z.after.map (Operation.entry name) : Multiset Entry))
    abel
  rw [hrest x, hrest y, Operation.entry, Operation.entry, h.event, h.pid,
    Multiset.coe_eq_coe.mpr (h.rest.map _)]

end Delivery.Reorders

section Delivered

variable {env : Env} {s : Scene} {x : Delivery} {name : WString}

theorem Scene.Admissible.orderly (h : s.Admissible env) : Orderly (s.table env) :=
  orderly_run h.proper h.tokens

/-- What the passes start from. -/
theorem steady_delivered (h : s.Admissible env)
    (ht : Timed (InWindow s.lo s.now) (s.table env) (s.table env).deferred)
    (hx : ∀ o ∈ x.operations, InWindow s.lo s.now o.tick) :
    Steady s.lo s.now (s.delivered env x) where
  tallied := run_invariant_mem _ Tallied (fun _ c hs (_ : True) => hs.step c)
    h.orderly.tallied fun _ _ => trivial
  timed := by
    refine run_invariant_mem _ (fun t : RegistryIoTable => Timed (InWindow s.lo s.now) t t.deferred)
      (fun t c hs (hc : c.TimedBy _) => hs.step hc) ht fun c hc => ?_
    obtain ⟨o, ho, rfl⟩ := List.mem_map.mp hc
    exact hx o ho

/-- The rows follow what was counted, to the end of the passes. -/
theorem rows_settled {r : RegistryIoTable} (hs : Steady s.lo s.now (s.delivered env x))
    (horder : s.lo ≤ s.now) (hps : InTime keyIdle s.lo s.now s.passes)
    (hr : s.Settles env x r) : RowsFollow env (s.table env) r.rows r.counted := by
  have hcount := rowsFollow_count env (s.table env) fun _ => True
  refine passes_rows hcount hs.timed horder hps hr.1 ?_
  refine run_holds hcount (fun c hc => ?_) ⟨[], rfl, rfl⟩
  obtain ⟨o, -, rfl⟩ := List.mem_map.mp hc
  rfl

/-- Rows that follow the same counts have the same figures. -/
theorem RowsFollow.same {t r r' : RegistryIoTable} (h : RowsFollow env t r.rows r.counted)
    (h' : RowsFollow env t r'.rows r'.counted)
    (he : (r.entries : Multiset Entry) = (r'.entries : Multiset Entry)) :
    rowTallies r.rows = rowTallies r'.rows := by
  obtain ⟨new, hnew, hrows⟩ := h
  obtain ⟨new', hnew', hrows'⟩ := h'
  have hperm : (new ++ t.entries).Perm (new' ++ t.entries) := by
    rw [← hnew, ← hnew']
    exact Multiset.coe_eq_coe.mp he
  rw [hrows, hrows', ((List.perm_append_right_iff _).mp hperm).foldr_eq]

/-- Nothing that waits in an orderly table has this token, or is about an address that looks like
one. -/
theorem Orderly.token_ne {t : RegistryIoTable} (h : Orderly t) {w : UInt64}
    (hw : isToken w = false ∨ t.nextToken ≤ w) : ∀ d ∈ t.deferred, d.token = 0 ∨ d.token ≠ w := by
  intro d hd
  rcases h.ordered.tokens d hd with h0 | ⟨htok, hlt⟩
  · exact Or.inl h0
  · right
    rintro rfl
    rcases hw with hw | hw
    · rw [htok] at hw
      exact absurd hw (by simp)
    · exact absurd (UInt64.lt_of_lt_of_le hlt hw) (UInt64.lt_irrefl _)

/-- The tables of two deliveries of an open that names its key object at once. -/
theorem level_named {t t₁ t₂ : RegistryIoTable} {y : Delivery} (hxy : x.Reorders y)
    (h₁ : DeliveredNamed x name t t₁) (h₂ : DeliveredNamed y name t t₂) :
    Level (fun _ => False) x.object t₁ t₂ := by
  have hobject := hxy.object
  have halike : Alike (· = x.object) t₁ t₂ := by
    have hsecond := h₂.alike
    rw [← hobject] at hsecond
    exact h₁.alike.symm.trans hsecond
  refine ⟨⟨fun k _ => ?_, fun k _ hnone => ?_, halike.pending⟩, fun k _ hk => ?_⟩
  · by_cases hk : k = x.object
    · rw [hk, h₁.text, hobject, h₂.text]
    · exact halike.text k hk
  · by_cases hk : k = x.object
    · rw [hk, h₁.text] at hnone
      exact absurd hnone nofun
    · exact halike.attempts k hk hnone
  · rw [h₁.unnamed k hk, h₂.unnamed k (hobject ▸ hk)]

/-- The tables of two deliveries of an open that waits. -/
theorem level_awaited {t t₁ t₂ : RegistryIoTable} {y : Delivery} (hxy : x.Reorders y)
    (h₁ : DeliveredAwaited x t t₁) (h₂ : DeliveredAwaited y t t₂) :
    Level (fun k => k = x.object ∧ x.base ≠ k) t.nextToken t₁ t₂ := by
  have hsecond := h₂.alike
  rw [← hxy.object] at hsecond
  have halike : Alike (fun k => k = x.object ∧ x.base ≠ k) t₁ t₂ :=
    (h₁.alike.symm.trans hsecond).mono fun _ => False.elim
  refine ⟨halike, fun k hk _ => ?_⟩
  have hk' : k ≠ x.object ∨ k = x.base := by
    by_cases hb : x.base = k
    · exact Or.inr hb.symm
    · exact Or.inl fun hko => hk ⟨hko, hb⟩
  have hk'' : k ≠ y.object ∨ k = y.base := by
    rw [← hxy.object, ← hxy.base]
    exact hk'
  rw [h₁.unnamed k hk', h₂.unnamed k hk'', ← hxy.base]

/-- The open and its operations wait under the token it got. -/
theorem awaiting_delivered {t t₁ : RegistryIoTable} (h : Orderly t) (hx : x.Valid)
    (htoken : isToken t.nextToken = true)
    (h₁ : DeliveredAwaited x t t₁) : Awaiting t.nextToken x t.deferred t₁ := by
  have hfresh : t.nextToken ∉ t.names := fun hm =>
    absurd (h.fresh.names _ hm htoken) (UInt64.lt_irrefl _)
  have hne : t.nextToken ≠ x.object := by
    intro he
    rw [he, hx.object] at htoken
    exact absurd htoken (by simp)
  refine ⟨h₁.deferred, ?_, ?_, fun hm => ?_⟩
  · rw [← h₁.alike.text _ not_false, RegistryIoTable.text]
    show (t.names.lookup t.nextToken).map Name.text = none
    rw [Finmap.lookup_eq_none.mpr hfresh]
    rfl
  · have htext : ({ t with
        attempts := t.attempts.erase x.object
        pendingOpens := t.pendingOpens.insert x.object t.nextToken }
          : RegistryIoTable).text t.nextToken = none := by
      rw [RegistryIoTable.text]
      show (t.names.lookup t.nextToken).map Name.text = none
      rw [Finmap.lookup_eq_none.mpr hfresh]
      rfl
    rw [← h₁.alike.attempts _ not_false htext]
    show (t.attempts.erase x.object).lookup t.nextToken = none
    rw [Finmap.lookup_erase_ne hne]
    refine Finmap.lookup_eq_none.mpr fun hm => ?_
    have hno := h.fresh.attempts _ hm
    rw [htoken] at hno
    exact absurd hno (by simp)
  · rcases (h₁.unnamed _ (Or.inl hne)).mp hm with hm | ⟨hb, -⟩
    · have hno := h.fresh.unnamed _ hm
      rw [htoken] at hno
      exact absurd hno (by simp)
    · rw [hb, hx.base] at htoken
      exact absurd htoken (by simp)

end Delivered

/-! ## every order -/

section Orders

variable {env : Env} {s : Scene} {r r' : RegistryIoTable} {name : WString}

theorem Scene.Admissible.unknown_second (h : s.Admissible env) :
    Unknown (s.table env) s.second.object := by
  rw [← h.reorders.object]
  exact h.unknown

theorem Scene.Admissible.room_second (h : s.Admissible env) :
    (s.table env).deferred.length + s.second.before.length + s.second.after.length
      < maxDeferred := by
  have hlength := h.reorders.length
  have hroom := h.room
  omega

/-- An open that names its key object at once. -/
theorem counted_named (h : s.Admissible env) (ht : s.Recent env keyIdle) (ha : s.Answered env)
    (hname : (s.table env).openedName env s.first.opened.event = some name)
    (hr : s.Settles env s.first r) (hr' : s.Settles env s.second r') :
    ∃ others : Multiset Entry,
      (r.entries : Multiset Entry)
        = (s.first.operations.map (Operation.entry name) : Multiset Entry) + others
          + ((s.table env).entries : Multiset Entry)
      ∧ (r'.entries : Multiset Entry)
        = (s.second.operations.map (Operation.entry name) : Multiset Entry) + others
          + ((s.table env).entries : Multiset Entry) := by
  have hroom := h.room
  have hroom' := h.room_second
  have hne : name ≠ [] := openedName_ne_nil h.orderly.timed.texts hname
  have hname' : (s.table env).openedName env s.second.opened.event = some name := by
    rw [← h.reorders.event, hname]
  have h₁ : DeliveredNamed s.first name (s.table env) (s.delivered env s.first) :=
    delivered_named h.unknown h.first (by omega) hne hname
  have h₂ : DeliveredNamed s.second name (s.table env) (s.delivered env s.second) :=
    delivered_named h.unknown_second h.second (by omega) hne hname'
  have hobject := h.reorders.object
  have hnaming : Naming s.first.object name s.second.before (s.table env).deferred
      (s.delivered env s.second) := by
    rw [hobject]
    exact ⟨h₂.deferred, h₂.text⟩
  have hunclaimed : Unclaimed s.first.object (s.table env).deferred (s.delivered env s.first) := by
    right
    rw [← h₁.alike.pending]
    exact Finmap.lookup_erase _ _
  obtain ⟨others, he, he'⟩ := passes_naming ht.order ht.passes
    (steady_delivered h ht.table ht.first) (steady_delivered h ht.table ht.second)
    (level_named h.reorders h₁ h₂) (Or.inr h.unknown.idle)
    ⟨fun _ _ => ⟨not_false, fun _ => not_false⟩, h.orderly.token_ne (Or.inl h.first.object)⟩
    hunclaimed ⟨h₁.deferred, h₁.text⟩ hnaming (fun o ho => (h.first.before o ho).operation)
    (fun o ho => (h.second.before o ho).operation) (fun p hp n hn _ => ha name hname p hp n hn)
    hr.1 hr'.1 hr.2 hr'.2
  refine ⟨others, ?_, ?_⟩
  · rw [he, h₁.entries, coe_reverse_append, ← Multiset.cons_coe, ← Multiset.singleton_add,
      s.first.coe_operations]
    abel
  · rw [he', h₂.entries, coe_reverse_append, ← Multiset.cons_coe, ← Multiset.singleton_add,
      s.second.coe_operations]
    abel

/-- An open that waits for its base. -/
theorem counted_awaited (h : s.Admissible env) (ht : s.Recent env keyIdle)
    (hu : s.Unrelated env)
    (hname : (s.table env).openedName env s.first.opened.event = none)
    (hr : s.Settles env s.first r) (hr' : s.Settles env s.second r') :
    ∃ (name : WString) (others : Multiset Entry),
      (r.entries : Multiset Entry)
        = (s.first.operations.map (Operation.entry name) : Multiset Entry) + others
          + ((s.table env).entries : Multiset Entry)
      ∧ (r'.entries : Multiset Entry)
        = (s.second.operations.map (Operation.entry name) : Multiset Entry) + others
          + ((s.table env).entries : Multiset Entry) := by
  have horderly := h.orderly
  have hname' : (s.table env).openedName env s.second.opened.event = none := by
    rw [← h.reorders.event, hname]
  have h₁ : DeliveredAwaited s.first (s.table env) (s.delivered env s.first) :=
    delivered_awaited horderly.tallied h.unknown h.first h.room h.token hname
  have h₂ : DeliveredAwaited s.second (s.table env) (s.delivered env s.second) :=
    delivered_awaited horderly.tallied h.unknown_second h.second h.room_second h.token hname'
  have hclear : ∀ d ∈ (s.table env).deferred,
      d.Clear fun k => k = s.first.object ∧ s.first.base ≠ k := by
    intro d hd
    refine ⟨fun hk => h.unknown.idle d hd hk.1, ?_⟩
    rintro hrel ⟨hobject, hbase⟩
    rw [hobject] at hbase
    exact hu hname hbase d hd hrel hobject
  obtain ⟨name, others, he, he'⟩ := passes_awaiting h.first h.second h.reorders
    (fun hk => hk.2 rfl) h.token ht.order ht.passes
    (steady_delivered h ht.table ht.first) (steady_delivered h ht.table ht.second)
    (level_awaited h.reorders h₁ h₂)
    ⟨hclear, horderly.token_ne (Or.inr (UInt64.le_refl _))⟩
    (fun d hd he => by
      have hno := (horderly.ordered.addresses d hd).1
      rw [he, h.token] at hno
      exact absurd hno (by simp))
    (awaiting_delivered horderly h.first h.token h₁)
    (awaiting_delivered horderly h.second h.token h₂) hr.1 hr'.1 hr.2 hr'.2
  refine ⟨name, others, ?_, ?_⟩
  · rw [he, h₁.entries]
  · rw [he', h₂.entries]

/--
**Whatever order an open and the operations on its key object are delivered in**, once passes left
nothing waiting all of them are counted under the open's name and the rows' figures are the same.
-/
theorem delivery_order_irrelevant (env : Env) (s : Scene) (h : s.Admissible env)
    (ht : s.Recent env keyIdle) (hu : s.Unrelated env) (ha : s.Answered env) : s.Same env := by
  intro r r' hr hr'
  have hcounted : ∃ (name : WString) (others : Multiset Entry),
      (r.entries : Multiset Entry)
        = (s.first.operations.map (Operation.entry name) : Multiset Entry) + others
          + ((s.table env).entries : Multiset Entry)
      ∧ (r'.entries : Multiset Entry)
        = (s.second.operations.map (Operation.entry name) : Multiset Entry) + others
          + ((s.table env).entries : Multiset Entry) := by
    cases hname : (s.table env).openedName env s.first.opened.event with
    | some name => exact ⟨name, counted_named h ht ha hname hr hr'⟩
    | none => exact counted_awaited h ht hu hname hr hr'
  refine ⟨hcounted, fun id => ?_⟩
  obtain ⟨name, others, he, he'⟩ := hcounted
  have hentries : (r.entries : Multiset Entry) = (r'.entries : Multiset Entry) := by
    rw [he, he', h.reorders.entries]
  have hrows := rows_settled (steady_delivered h ht.table ht.first) ht.order ht.passes hr
  have hrows' := rows_settled (steady_delivered h ht.table ht.second) ht.order ht.passes hr'
  rw [hrows.same hrows' hentries]

end Orders

/-! ## why each condition -/

instance (lo hi : UInt64) : DecidablePred (InWindow lo hi) := fun _ =>
  inferInstanceAs (Decidable (_ ∧ _))

instance decidableInTime (idle lo : UInt64) :
    ∀ (hi : UInt64) (ps : List ResolverPass), Decidable (InTime idle lo hi ps)
  | _, [] => isTrue trivial
  | _, p :: ps =>
    have := decidableInTime idle lo p.tick ps
    inferInstanceAs (Decidable (_ ∧ _ ∧ _))

/-- A scene with the open first, and with one operation before it. -/
def Scene.around (calls : List Call) (opened operation : Operation) (now : UInt64)
    (passes : List ResolverPass) : Scene where
  calls := calls
  first := ⟨[], opened, [operation]⟩
  second := ⟨[operation], opened, []⟩
  lo := 0
  now := now
  passes := passes

/-- A pass that names one key object and knows nothing of the others. -/
def ResolverPass.naming (object : UInt64) (name : KeyName) (tick : UInt64) : ResolverPass where
  answer k := if k = object then .ok name else .error .closed
  tick := tick

theorem Scene.recent_around {env : Env} {calls : List Call} {opened operation : Operation}
    {now idle : UInt64} {passes : List ResolverPass}
    (hcalls : ∀ c ∈ calls, c.TimedBy (InWindow 0 now)) (hopened : opened.tick ≤ now)
    (hoperation : operation.tick ≤ now) (hpasses : InTime idle 0 now passes) :
    (Scene.around calls opened operation now passes).Recent env idle where
  order := UInt64.zero_le
  table := run_invariant_mem (RegistryIoTable.step env)
    (fun t : RegistryIoTable => Timed (InWindow 0 now) t t.deferred)
    (fun _ c hs (hc : c.TimedBy _) => hs.step hc) Timed.start hcalls
  first := by
    intro o ho
    rcases List.mem_cons.mp ho with rfl | ho
    · exact ⟨UInt64.zero_le, hopened⟩
    · rw [List.mem_singleton.mp ho]
      exact ⟨UInt64.zero_le, hoperation⟩
  second := by
    intro o ho
    rcases List.mem_cons.mp ho with rfl | ho
    · exact ⟨UInt64.zero_le, hoperation⟩
    · rw [List.mem_singleton.mp ho]
      exact ⟨UInt64.zero_le, hopened⟩
  passes := hpasses

theorem Scene.admissible_around {env : Env} {calls : List Call} {opened operation : Operation}
    {now : UInt64} {passes : List ResolverPass} (hproper : ∀ c ∈ calls, c.Proper)
    (htokens : Along (RegistryIoTable.step env) (TokenInRange env) {} calls)
    (htoken : isToken (RegistryIoTable.after env calls).nextToken = true)
    (hof : operation.IsOf opened.event) (hopens : opened.event.opens = true)
    (hobject : isToken opened.event.keyObject = false)
    (hbase : isToken opened.event.baseObject = false)
    (hunknown : Unknown (RegistryIoTable.after env calls) opened.event.keyObject)
    (hroom : (RegistryIoTable.after env calls).deferred.length + 1 < maxDeferred) :
    (Scene.around calls opened operation now passes).Admissible env where
  proper := hproper
  tokens := htokens
  token := htoken
  first := ⟨nofun, fun _ ho => List.mem_singleton.mp ho ▸ hof, hopens, hobject, hbase⟩
  second := ⟨fun _ ho => List.mem_singleton.mp ho ▸ hof, nofun, hopens, hobject, hbase⟩
  reorders := ⟨rfl, rfl, List.Perm.refl _⟩
  unknown := hunknown
  room := hroom

section Scenes

/-- An open that waits for its base, with an operation of another process. -/
def awaitedOpen : Operation :=
  ⟨{ operation := .openKey, keyObject := 0x10, baseObject := 0x20, stamp := 10 }, 8, 30000, 30000⟩

def itsOperation : Operation :=
  ⟨{ operation := .setValue, keyObject := 0x10, stamp := 11 }, 7, 30000, 30000⟩

theorem itsOperation_isOf : itsOperation.IsOf awaitedOpen.event :=
  ⟨by decide, by decide, by decide, by decide⟩

/-- The resolver names the base in the first pass, and the operation is counted in the second at
the latest. -/
def waitsForBase (tick : UInt64) : List ResolverPass :=
  [.naming 0x20 ⟨wide "\\REGISTRY\\MACHINE\\X", by decide⟩ tick,
    .naming 0x20 ⟨wide "\\REGISTRY\\MACHINE\\X", by decide⟩ tick]

theorem delivery_order_irrelevant_waits :
    (Scene.around [] awaitedOpen itsOperation 30000 (waitsForBase 40000)).Same Env.ascii :=
  delivery_order_irrelevant Env.ascii _
    (Scene.admissible_around nofun trivial (by decide) itsOperation_isOf (by decide) (by decide)
      (by decide) ⟨by decide, by decide, nofun, by decide⟩ (by decide))
    (Scene.recent_around nofun (by decide) (by decide) (by decide))
    (fun _ _ => nofun) (fun _ h => absurd h nofun)

/-- The operation's process has used the key before, a minute before the passes. -/
def usedBefore : List Call :=
  [.onEvent { operation := .openKey, keyObject := 0x30, stamp := 1,
              name := wide "\\REGISTRY\\MACHINE\\X" } 7 0 0]

/-- The first pass prunes the row of that use, unless the operation was counted into it. -/
theorem pruned_between :
    ¬ (Scene.around usedBefore awaitedOpen itsOperation 30000 (waitsForBase 61000)).Same
      Env.ascii := by
  intro hsame
  have h := (hsame _ _ ⟨⟨[0x20], by decide, by decide, [], by decide, by decide, rfl⟩, by decide⟩
    ⟨⟨[0x10, 0x20], by decide, by decide, [], by decide, by decide, rfl⟩, by decide⟩).2
    ⟨7, wide "HKLM\\X"⟩
  revert h
  decide

/-- Two opens wait, one relative to the other's key object, which a failed open then reports. -/
def relativeWaits : List Call :=
  [ .onEvent { operation := .openKey, keyObject := 0x40, baseObject := 0x10, stamp := 5,
               name := wide "rel" } 7 0 0,
    .takeUnnamed,
    .onEvent { operation := .openKey, keyObject := 0x10, baseObject := 0x50, stamp := 3,
               name := wide "sub" } 7 0 0,
    .onEvent { operation := .openKey, keyObject := 0x10, stamp := 6, status := 0xC0000034,
               name := wide "\\REGISTRY\\MACHINE\\X" } 7 0 0 ]

/-- The key object is named by the resolver first, its base one pass later. -/
def namesObjectFirst : List ResolverPass :=
  [ { answer := fun k =>
        if k = 0x20 then .error .closed else .ok ⟨wide "\\REGISTRY\\MACHINE\\Z", by decide⟩
      tick := 40000 },
    .naming 0x20 ⟨wide "\\REGISTRY\\MACHINE\\X", by decide⟩ 40000,
    .naming 0x20 ⟨wide "\\REGISTRY\\MACHINE\\X", by decide⟩ 40000 ]

/-- The resolver is asked for the key object in one order only, and names what is relative to it. -/
theorem relative_named_once :
    ¬ (Scene.around relativeWaits awaitedOpen itsOperation 30000 namesObjectFirst).Same
      Env.ascii := by
  intro hsame
  have h := (hsame _ _
    ⟨⟨[0x50, 0x20], by decide, by decide, [0x20], by decide, by decide, [], by decide,
      by decide, rfl⟩, by decide⟩
    ⟨⟨[0x50, 0x10, 0x20], by decide, by decide, [0x20], by decide, by decide, [], by decide,
      by decide, rfl⟩, by decide⟩).2 ⟨7, Env.ascii.upper (wide "HKLM\\Z\\rel")⟩
  revert h
  decide

/-- An open that names its key object at once. -/
def namedOpen : Operation :=
  ⟨{ operation := .openKey, keyObject := 0x10, stamp := 10,
     name := wide "\\REGISTRY\\MACHINE\\X" }, 8, 30000, 30000⟩

def otherName : List ResolverPass :=
  [.naming 0x10 ⟨wide "\\REGISTRY\\MACHINE\\Z", by decide⟩ 40000]

/-- The resolver finds another name for the key object, of which it is asked in one order only. -/
theorem other_name_found :
    ¬ (Scene.around [] namedOpen itsOperation 30000 otherName).Same Env.ascii := by
  intro hsame
  have h := (hsame _ _ ⟨⟨[], by decide, by decide, rfl⟩, by decide⟩
    ⟨⟨[0x10], by decide, by decide, rfl⟩, by decide⟩).2 ⟨7, wide "HKLM\\X"⟩
  revert h
  decide

/-- No condition can be left out: rows are pruned after `KeyIdle`, not `NameIdle`; what waits may be
relative to the key object; the resolver may find another name. -/
theorem delivery_order_relevant :
    (¬ ∀ (env : Env) (s : Scene), s.Admissible env → s.Recent env nameIdle → s.Unrelated env →
      s.Answered env → s.Same env)
    ∧ (¬ ∀ (env : Env) (s : Scene), s.Admissible env → s.Recent env keyIdle → s.Answered env →
      s.Same env)
    ∧ (¬ ∀ (env : Env) (s : Scene), s.Admissible env → s.Recent env keyIdle → s.Unrelated env →
      s.Same env) := by
  refine ⟨fun hall => ?_, fun hall => ?_, fun hall => ?_⟩
  · refine pruned_between (hall Env.ascii _ ?_ ?_ (fun _ _ => nofun) fun _ h => absurd h ?_)
    · exact Scene.admissible_around (by decide) (by decide) (by decide) itsOperation_isOf
        (by decide) (by decide) (by decide) ⟨by decide, by decide, nofun, by decide⟩ (by decide)
    · refine Scene.recent_around (fun c hc => ?_) (by decide) (by decide) (by decide)
      rw [List.mem_singleton.mp hc]
      show InWindow 0 30000 0
      decide
    · have hnone : (RegistryIoTable.after Env.ascii usedBefore).openedName Env.ascii
          awaitedOpen.event = none := by decide
      show (RegistryIoTable.after Env.ascii usedBefore).openedName Env.ascii
        awaitedOpen.event ≠ some _
      rw [hnone]
      nofun
  · refine relative_named_once (hall Env.ascii _ ?_ ?_ fun _ h => absurd h ?_)
    · exact Scene.admissible_around (by decide) (by decide) (by decide) itsOperation_isOf
        (by decide) (by decide) (by decide) ⟨by decide, by decide, by decide, by decide⟩ (by decide)
    · refine Scene.recent_around (fun c hc => ?_) (by decide) (by decide) (by decide)
      simp only [relativeWaits, List.mem_cons, List.not_mem_nil, or_false] at hc
      rcases hc with rfl | rfl | rfl | rfl
      · show InWindow 0 30000 0
        decide
      · trivial
      · show InWindow 0 30000 0
        decide
      · show InWindow 0 30000 0
        decide
    · have hnone : (RegistryIoTable.after Env.ascii relativeWaits).openedName Env.ascii
          awaitedOpen.event = none := by decide
      show (RegistryIoTable.after Env.ascii relativeWaits).openedName Env.ascii
        awaitedOpen.event ≠ some _
      rw [hnone]
      nofun
  · refine other_name_found (hall Env.ascii _ ?_ ?_ fun _ _ => nofun)
    · exact Scene.admissible_around nofun trivial (by decide)
        ⟨by decide, by decide, by decide, by decide⟩ (by decide) (by decide) (by decide)
        ⟨by decide, by decide, nofun, by decide⟩ (by decide)
    · exact Scene.recent_around nofun (by decide) (by decide) (by decide)

end Scenes

end WinSys.Registry
