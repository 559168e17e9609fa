import WinSys.Registry.Bookkeeping
import WinSys.Registry.Tokens
import Mathlib.Logic.Function.Basic

/-!
# Under whose name an operation is counted

Key objects' addresses are reused and their closing is not seen, so the name an address has may be
an earlier key's. `OpenHistory` records, beside the table, which open an address had when an
operation on it arrived; the law is that the operation is counted under the name that open was
counted under, or unnamed.

The names of the table are kept to the latest open of their address (`Kept`) by every step but
these: a flush that counts an open whose address has a later one, an answer of the resolver that is
not the latest open's name, and an open of the same stamp as an operation before it. An answer for
an open that still waits does no harm as long as nothing finds it before the open is counted.

* `Kept`: the invariant, for the queue as a sweep leaves it so far
* `operations_follow_their_open`: every run without such steps
-/

namespace WinSys.Registry

open Infra

/-! ## history -/

/-- What was opened, in the events' own terms. -/
structure OpenHistory where
  /-- An address's latest successful open. -/
  holder : UInt64 → Option RegistryEvent := fun _ => none
  /-- By an operation's number, the latest successful open of its key object before it. -/
  own : ℕ → Option RegistryEvent := fun _ => none
  /-- The open that took a token. -/
  opener : UInt64 → Option RegistryEvent := fun _ => none
  /-- How many events came. -/
  arrived : ℕ := 0

/-- A table and what was opened. -/
structure Followed where
  table : RegistryIoTable := {}
  history : OpenHistory := {}

def OpenHistory.next (h : OpenHistory) (t t' : RegistryIoTable) : Call → OpenHistory
  | .onEvent e _ _ _ =>
    { holder := if e.opens = true ∧ e.keyObject ≠ 0
        then Function.update h.holder e.keyObject (some e) else h.holder
      own := if e.isOpen then h.own
        else Function.update h.own e.serial (h.holder e.keyObject)
      opener := if t'.nextToken ≠ t.nextToken
        then Function.update h.opener t.nextToken (some e) else h.opener
      arrived := h.arrived + 1 }
  | _ => h

def Followed.step (env : Env) (f : Followed) (c : Call) : Followed :=
  ⟨f.table.step env c, f.history.next f.table (f.table.step env c) c⟩

/-! ## the law -/

/-- An event was counted under a name. -/
def CountedAs (counted : List Counted) (e : RegistryEvent) (name : WString) : Prop :=
  ∃ c ∈ counted, c.event = e ∧ c.name = name

/-- An operation on a key object that was opened before is counted under the name its open was
counted under, or as unnamed. -/
def WellNamed (h : OpenHistory) (counted : List Counted) : Prop :=
  ∀ c ∈ counted, c.event.isOpen = false → ∀ o, h.own c.event.serial = some o →
    c.name = [] ∨ CountedAs counted o c.name

/-- The calls of a run: events carry their number and no token, the resolver's names are of key
objects and not empty. -/
def Call.Regular (f : Followed) : Call → Prop
  | .onEvent e _ _ _ => e.serial = f.history.arrived ∧ isToken e.keyObject = false
  | .setName object name _ => name ≠ [] ∧ isToken object = false
  | _ => True

/-- An address's latest open waits, and names it when it is counted. -/
def Awaited (t : RegistryIoTable) (l : List Deferred) (object : UInt64) : Prop :=
  ∃ d ∈ l, d.event.opens = true ∧ d.event.keyObject = object
    ∧ t.pendingOpens.lookup object = some d.token

/-- What an open flushes are the latest opens of their addresses, and no operation that has an open
waits on its address from its stamp on. -/
def OpenKeeps (f : Followed) (e : RegistryEvent) : Prop :=
  (∀ d ∈ f.table.deferred, RegistryIoTable.flushes e.keyObject e.stamp d = true →
    d.event.opens = true → d.event.keyObject ≠ 0 →
      f.history.holder d.event.keyObject = some d.event)
    ∧ (isFailure e.status = false → ∀ d ∈ f.table.deferred, d.event.isOpen = false →
      d.waiting = e.keyObject → e.stamp ≤ d.event.stamp → f.history.own d.event.serial = none)

/-- The steps that keep the names to the latest opens. -/
def KeepsNames (env : Env) (f : Followed) : Call → Prop
  | .onEvent e _ _ _ =>
    (e.isOpen = true → isRetried e.status = false → e.keyObject ≠ 0 → OpenKeeps f e)
      -- the address was named while its open waits: only a new key may follow
      ∧ (e.operation.isIgnored = false → (e.isOpen = true → isFailure e.status = true) →
        e.keyObject ∈ f.table.names → ¬Awaited f.table f.table.deferred e.keyObject)
  | .setName object name _ => Awaited f.table f.table.deferred object ∨
    ∀ o, f.history.holder object = some o → CountedAs f.table.counted o (env.registryName name)
  | _ => True

instance (x : Option RegistryEvent) (P : RegistryEvent → Prop) [DecidablePred P] :
    Decidable (∀ o, x = some o → P o) :=
  inferInstanceAs (Decidable (∀ o ∈ x, P o))

instance (counted : List Counted) (e : RegistryEvent) (name : WString) :
    Decidable (CountedAs counted e name) :=
  inferInstanceAs (Decidable (∃ c ∈ counted, _))

instance (h : OpenHistory) (counted : List Counted) : Decidable (WellNamed h counted) :=
  inferInstanceAs (Decidable (∀ c ∈ counted, _))

instance (f : Followed) : DecidablePred (Call.Regular f)
  | .onEvent .. | .setName .. => inferInstanceAs (Decidable (_ ∧ _))
  | .takeUnnamed | .nameFailed .. | .applyDeferred | .prune _ | .removeProcess _ | .clear =>
    .isTrue trivial

instance (t : RegistryIoTable) (l : List Deferred) (object : UInt64) :
    Decidable (Awaited t l object) :=
  inferInstanceAs (Decidable (∃ d ∈ l, _))

instance (f : Followed) (e : RegistryEvent) : Decidable (OpenKeeps f e) :=
  inferInstanceAs (Decidable (_ ∧ _))

instance (env : Env) (f : Followed) : DecidablePred (KeepsNames env f)
  | .onEvent .. => inferInstanceAs (Decidable (_ ∧ _))
  | .setName .. => inferInstanceAs (Decidable (_ ∨ ∀ o, _ = some o → _))
  | .takeUnnamed | .nameFailed .. | .applyDeferred | .prune _ | .removeProcess _ | .clear =>
    .isTrue trivial

/-! ## the invariant -/

/-- What a waiting operation waits on is its own open's, if it has one. -/
def OwnWait (h : OpenHistory) (d : Deferred) : Prop :=
  isToken d.waiting = true ∧ (∃ o, h.opener d.waiting = some o
      ∧ (h.own d.event.serial = none ∨ h.own d.event.serial = some o))
    ∨ isToken d.waiting = false
      ∧ (h.own d.event.serial = none ∨ h.own d.event.serial = h.holder d.waiting)

/-- A waiting open's token is its own. -/
def OwnToken (h : OpenHistory) (d : Deferred) : Prop :=
  isRetried d.event.status = false ∧ isToken d.event.keyObject = false
    ∧ (d.token ≠ 0 → d.event.opens = true ∧ isToken d.token = true
      ∧ h.opener d.token = some d.event)

/-- The name an address has, if any, is its latest open's. -/
def Settled (h : OpenHistory) (t : RegistryIoTable) (object : UInt64) : Prop :=
  ∀ text, t.text object = some text → ∀ o, h.holder object = some o → CountedAs t.counted o text

/-- The table's names are those of the latest opens, or are left to these. -/
structure Kept (h : OpenHistory) (t : RegistryIoTable) (l : List Deferred) : Prop where
  names : ∀ k, isToken k = false → Settled h t k ∨ Awaited t l k
  tokens : ∀ k n, t.names.lookup k = some n → isToken k = true →
    ∃ o, h.opener k = some o ∧ CountedAs t.counted o n.text
  texts : ∀ k n, t.names.lookup k = some n → n.text ≠ []
  pending : ∀ k v, t.pendingOpens.lookup k = some v →
    isToken v = true ∧ ∃ o, h.opener v = some o ∧ h.holder k = some o
  keys : ∀ k v, t.pendingOpens.lookup k = some v → k ≠ 0 ∧ isToken k = false
  apart : ∀ d ∈ l, d.event.isOpen = false → ∀ v, t.pendingOpens.lookup d.waiting = some v →
    h.own d.event.serial = none
  opens : ∀ d ∈ l, d.event.isOpen = true → OwnToken h d
  ops : ∀ d ∈ l, d.event.isOpen = false → OwnWait h d
  counted : WellNamed h t.counted
  waiting : ∀ d ∈ l, d.event.serial < h.arrived
  past : ∀ c ∈ t.counted, c.event.serial < h.arrived
  fresh : ∀ k, isToken k = true → t.nextToken ≤ k → h.opener k = none

theorem CountedAs.mono {counted counted' : List Counted} {e : RegistryEvent} {name : WString}
    (hsub : counted ⊆ counted') (h : CountedAs counted e name) : CountedAs counted' e name := by
  obtain ⟨c, hc, he⟩ := h
  exact ⟨c, hsub hc, he⟩

namespace Kept

variable {env : Env} {h : OpenHistory} {t : RegistryIoTable} {l : List Deferred}
  {e : RegistryEvent} {name : WString} {pid : UInt32} {time : ℤ} {tick : UInt64} {d : Deferred}

theorem start : Kept {} {} [] where
  names k _ := Or.inl fun _ hk => by simp [RegistryIoTable.text] at hk
  tokens k n hk := by simp at hk
  texts k n hk := by simp at hk
  pending k v hk := by simp at hk
  keys k v hk := by simp at hk
  apart _ hd := absurd hd List.not_mem_nil
  opens _ hd := absurd hd List.not_mem_nil
  ops _ hd := absurd hd List.not_mem_nil
  counted _ hc := absurd hc List.not_mem_nil
  waiting _ hd := absurd hd List.not_mem_nil
  past _ hc := absurd hc List.not_mem_nil
  fresh _ _ _ := rfl

/-- An element leaves the queue; an open that is its address's pending one has named it. -/
theorem remove {kept rest : List Deferred} (hk : Kept h t (kept ++ d :: rest))
    (hnamed : d.event.opens = true → t.pendingOpens.lookup d.event.keyObject = some d.token →
      Settled h t d.event.keyObject) : Kept h t (kept ++ rest) where
  names k hkt := by
    rcases hk.names k hkt with hs | ⟨x, hx, ho, hkey, hp⟩
    · exact Or.inl hs
    · by_cases hxd : x = d
      · subst hxd hkey
        exact Or.inl (hnamed ho hp)
      · refine Or.inr ⟨x, ?_, ho, hkey, hp⟩
        simp only [List.mem_append, List.mem_cons] at hx ⊢
        tauto
  tokens := hk.tokens
  texts := hk.texts
  pending := hk.pending
  keys := hk.keys
  apart x hx := hk.apart x (mem_skip hx)
  opens x hx := hk.opens x (mem_skip hx)
  ops x hx := hk.ops x (mem_skip hx)
  counted := hk.counted
  waiting x hx := hk.waiting x (mem_skip hx)
  past := hk.past
  fresh := hk.fresh

/-- Names may be forgotten, and a name's tick may change. -/
theorem forget {t' : RegistryIoTable} (hk : Kept h t l)
    (hn : ∀ k n, t'.names.lookup k = some n → ∃ n', t.names.lookup k = some n' ∧ n'.text = n.text)
    (hp : t'.pendingOpens = t.pendingOpens)
    (hc : t'.counted = t.counted) (hnext : t'.nextToken = t.nextToken) : Kept h t' l where
  names k hkt := by
    refine (hk.names k hkt).imp (fun hs text htext => ?_) fun ha => ?_
    · obtain ⟨n, hkn, rfl⟩ := Option.map_eq_some_iff.mp htext
      obtain ⟨n', hkn', htext'⟩ := hn k n hkn
      rw [hc]
      exact hs n.text (Option.map_eq_some_iff.mpr ⟨n', hkn', htext'⟩)
    · rw [Awaited, hp]
      exact ha
  tokens k n hkn := by
    obtain ⟨n', hkn', htext⟩ := hn k n hkn
    rw [hc, ← htext]
    exact hk.tokens k n' hkn'
  texts k n hkn := by
    obtain ⟨n', hkn', htext⟩ := hn k n hkn
    rw [← htext]
    exact hk.texts k n' hkn'
  pending := by rw [hp]; exact hk.pending
  keys := by rw [hp]; exact hk.keys
  apart := by rw [hp]; exact hk.apart
  opens := hk.opens
  ops := hk.ops
  counted := by rw [hc]; exact hk.counted
  waiting := hk.waiting
  past := by rw [hc]; exact hk.past
  fresh := by rw [hnext]; exact hk.fresh

/-- The pending open of an address is forgotten once the address's name is settled. -/
theorem settle {object : UInt64} (hk : Kept h t l) (hs : Settled h t object) :
    Kept h { t with pendingOpens := t.pendingOpens.erase object } l := by
  have hold : ∀ {k v}, (t.pendingOpens.erase object).lookup k = some v →
      t.pendingOpens.lookup k = some v := by
    intro k v hv
    rw [Finmap.lookup_erase_eq] at hv
    split at hv
    · cases hv
    · exact hv
  refine ⟨fun k hkt => ?_, hk.tokens, hk.texts, fun k v hv => hk.pending k v (hold hv),
    fun k v hv => hk.keys k v (hold hv), fun d hd ho v hv => hk.apart d hd ho v (hold hv), hk.opens,
    hk.ops, hk.counted, hk.waiting, hk.past, hk.fresh⟩
  rcases hk.names k hkt with hsettled | ⟨d, hd, ho, hkey, hp⟩
  · exact Or.inl hsettled
  · by_cases hobject : k = object
    · subst hobject
      exact Or.inl hs
    · exact Or.inr ⟨d, hd, ho, hkey, (Finmap.lookup_erase_ne hobject).trans hp⟩

/-- The same names, noted otherwise. -/
theorem of_text {names : Finmap fun _ : UInt64 => Name} (hk : Kept h t l)
    (htext : ∀ k, (names.lookup k).map Name.text = t.text k) : Kept h { t with names := names } l := by
  refine hk.forget (fun k n hkn => ?_) rfl rfl rfl
  have htk := htext k
  rw [show names.lookup k = some n from hkn, RegistryIoTable.text] at htk
  obtain ⟨m, hm, hmn⟩ := Option.map_eq_some_iff.mp htk.symm
  exact ⟨m, hm, hmn⟩

/-- A change of the other fields. -/
theorem of_eq {t' : RegistryIoTable} (hk : Kept h t l) (hn : t'.names = t.names)
    (hp : t'.pendingOpens = t.pendingOpens) (hc : t'.counted = t.counted)
    (hnext : t'.nextToken = t.nextToken) : Kept h t' l :=
  hk.forget (fun _ n hkn => ⟨n, by rw [← hn]; exact hkn, rfl⟩) hp hc hnext

theorem insert_name {k : UInt64} {n : Name} (hk : Kept h t l) (hne : n.text ≠ [])
    (hname : isToken k = false →
      (∀ o, h.holder k = some o → CountedAs t.counted o n.text) ∨ Awaited t l k)
    (htoken : isToken k = true → ∃ o, h.opener k = some o ∧ CountedAs t.counted o n.text) :
    Kept h { t with names := t.names.insert k n } l := by
  have hcases : ∀ j m, (t.names.insert k n).lookup j = some m →
      j = k ∧ m = n ∨ t.names.lookup j = some m := by
    intro j m hj
    rw [Finmap.lookup_insert_eq] at hj
    split at hj
    · next he => exact Or.inl ⟨he, (Option.some.inj hj).symm⟩
    · exact Or.inr hj
  refine ⟨fun j hj => ?_, fun j m hj => ?_, fun j m hj => ?_, hk.pending, hk.keys, hk.apart,
    hk.opens, hk.ops, hk.counted, hk.waiting, hk.past, hk.fresh⟩
  · by_cases hjk : j = k
    · subst hjk
      refine (hname hj).imp_left fun hcounted text htext => ?_
      rw [RegistryIoTable.text, Finmap.lookup_insert] at htext
      cases htext
      exact hcounted
    · refine (hk.names j hj).imp_left fun hs text htext => hs text ?_
      rwa [RegistryIoTable.text, Finmap.lookup_insert_of_ne _ hjk] at htext
  · rcases hcases j m hj with ⟨rfl, rfl⟩ | hj
    · exact htoken
    · exact hk.tokens j m hj
  · rcases hcases j m hj with ⟨rfl, rfl⟩ | hj
    · exact hne
    · exact hk.texts j m hj

/-- Where no open is to name an address that has a name, that name is settled. -/
theorem settled_of_not_awaited {k : UInt64} (hk : Kept h t l) (ht : isToken k = false)
    (hnot : k ∈ t.names → ¬Awaited t l k) : Settled h t k := by
  by_cases hn : k ∈ t.names
  · exact (hk.names k ht).resolve_right (hnot hn)
  · intro text htext
    rw [RegistryIoTable.text, Finmap.lookup_eq_none.mpr hn] at htext
    cases htext

/-- One more record. -/
theorem record {c : Counted} (hk : Kept h t l) (hs : c.event.serial < h.arrived)
    (hop : c.event.isOpen = false → ∀ o, h.own c.event.serial = some o →
      c.name = [] ∨ CountedAs t.counted o c.name) :
    Kept h { t with counted := c :: t.counted } l := by
  have hsub : t.counted ⊆ c :: t.counted := List.subset_cons_self c t.counted
  refine ⟨fun k hkt => ?_, fun k n hkn ht => ?_, hk.texts, hk.pending, hk.keys, hk.apart, hk.opens,
    hk.ops, fun x hx hno o ho => ?_, hk.waiting, fun x hx => ?_, hk.fresh⟩
  · exact (hk.names k hkt).imp_left fun hs text htext o ho => (hs text htext o ho).mono hsub
  · obtain ⟨o, ho, hcounted⟩ := hk.tokens k n hkn ht
    exact ⟨o, ho, hcounted.mono hsub⟩
  · rcases List.mem_cons.mp hx with rfl | hx
    · exact (hop hno o ho).imp_right fun hcounted => hcounted.mono hsub
    · exact (hk.counted x hx hno o ho).imp_right fun hcounted => hcounted.mono hsub
  · rcases List.mem_cons.mp hx with rfl | hx
    · exact hs
    · exact hk.past x hx

/-- Counting an event: an operation under its own open's name or none, an open that names its key
object as the latest one of it. -/
theorem count (hk : Kept h t l) (hs : e.serial < h.arrived) (b : Bool)
    (hop : e.isOpen = false → ∀ o, h.own e.serial = some o →
      name = [] ∨ CountedAs t.counted o name)
    (hopen : e.names name b = true → isToken e.keyObject = false
      ∧ ∀ o, h.holder e.keyObject = some o → o = e) :
    Kept h (t.count env e name pid time tick b) l := by
  have hrecord : Kept h { t with counted := ⟨e, name, pid, time, tick⟩ :: t.counted } l :=
    hk.record hs hop
  have hnoted := hrecord.of_text fun k => @RegistryIoTable.noteBase_text env t e name tick k
  have heq : Kept h { t with
      counted := ⟨e, name, pid, time, tick⟩ :: t.counted
      names := (t.count env e name pid time tick b).names } l := by
    rw [RegistryIoTable.count_names]
    split
    · next hn =>
      obtain ⟨ht, hlatest⟩ := hopen hn
      have hne : name ≠ [] := by
        simp only [RegistryEvent.names, Bool.and_eq_true, decide_eq_true_eq] at hn
        exact hn.1.2
      refine hnoted.insert_name hne (fun _ => Or.inl fun o ho => ?_) fun htok => ?_
      · rw [hlatest o ho]
        exact ⟨_, List.mem_cons_self, rfl, rfl⟩
      · rw [ht] at htok
        exact absurd htok (by simp)
    · exact hnoted
  exact heq.of_eq rfl rfl rfl rfl

/-- An open that is counted settles its key object's name. -/
theorem settled_names (hn : e.names name b = true)
    (hlatest : ∀ o, h.holder e.keyObject = some o → o = e) :
    Settled h (t.count env e name pid time tick b) e.keyObject := by
  intro text htext o ho
  rw [RegistryIoTable.count_text, if_pos ⟨hn, rfl⟩] at htext
  cases htext
  rw [hlatest o ho]
  exact ⟨_, List.mem_cons_self, rfl, rfl⟩

/-- A count leaves settled what was. -/
theorem settled_count {k : UInt64} (hs : Settled h t k)
    (hlatest : e.names name b = true → ∀ o, h.holder e.keyObject = some o → o = e) :
    Settled h (t.count env e name pid time tick b) k := by
  by_cases hn : e.names name b = true ∧ k = e.keyObject
  · rw [hn.2]
    exact settled_names hn.1 (hlatest hn.1)
  · intro text htext o ho
    rw [RegistryIoTable.count_text, if_neg hn] at htext
    exact (hs text htext o ho).mono (List.subset_cons_self _ _)

/-- The token of an open that was counted gets its name, and the open is no longer pending. -/
theorem nameToken (hk : Kept h t l) (hd : OwnToken h d) (hne : name ≠ [])
    (hcounted : CountedAs t.counted d.event name)
    (hsettled : d.token ≠ 0 → t.pendingOpens.lookup d.event.keyObject = some d.token →
      Settled h t d.event.keyObject) : Kept h (t.nameToken d name tick) l := by
  unfold RegistryIoTable.nameToken
  split
  · exact hk
  · next h0 =>
    obtain ⟨-, htok, hopener⟩ := hd.2.2 h0
    have hnamed : Kept h { t with names := t.names.insert d.token ⟨name, tick, [tick]⟩ } l := by
      refine hk.insert_name hne (fun hno => ?_) fun _ => ⟨d.event, hopener, hcounted⟩
      rw [htok] at hno
      exact absurd hno (by simp)
    split
    · next hp =>
      refine hnamed.settle fun text htext => hsettled h0 hp text ?_
      have hkey : d.event.keyObject ≠ d.token := by
        intro he
        have hno := hd.2.1
        rw [he, htok] at hno
        exact absurd hno (by simp)
      rwa [RegistryIoTable.text, Finmap.lookup_insert_of_ne _ hkey] at htext
    · exact hnamed

/-- An element joins the queue. -/
theorem append (hk : Kept h t l) (hs : d.event.serial < h.arrived)
    (hopen : d.event.isOpen = true → OwnToken h d)
    (hop : d.event.isOpen = false → OwnWait h d)
    (hapart : d.event.isOpen = false → ∀ v, t.pendingOpens.lookup d.waiting = some v →
      h.own d.event.serial = none) : Kept h t (l ++ [d]) where
  names k hkt := by
    rcases hk.names k hkt with hl | ⟨x, hx, hawaited⟩
    · exact Or.inl hl
    · exact Or.inr ⟨x, List.mem_append_left _ hx, hawaited⟩
  tokens := hk.tokens
  texts := hk.texts
  pending := hk.pending
  keys := hk.keys
  apart x hx ho := by
    rcases List.mem_append.mp hx with hx | hx
    · exact hk.apart x hx ho
    · rw [List.mem_singleton.mp hx] at ho ⊢
      exact hapart ho
  opens x hx ho := by
    rcases List.mem_append.mp hx with hx | hx
    · exact hk.opens x hx ho
    · rw [List.mem_singleton.mp hx] at ho ⊢
      exact hopen ho
  ops x hx ho := by
    rcases List.mem_append.mp hx with hx | hx
    · exact hk.ops x hx ho
    · rw [List.mem_singleton.mp hx] at ho ⊢
      exact hop ho
  counted := hk.counted
  waiting x hx := by
    rcases List.mem_append.mp hx with hx | hx
    · exact hk.waiting x hx
    · rw [List.mem_singleton.mp hx]
      exact hs
  past := hk.past
  fresh := hk.fresh

/-! ## one operation of the table -/

/-- An event arrives: its number is used, for an operation with its own open. -/
theorem arrive (hk : Kept h t l) (own : Option RegistryEvent) :
    Kept { h with own := Function.update h.own h.arrived own, arrived := h.arrived + 1 } t l := by
  have hown : ∀ s, s < h.arrived → Function.update h.own h.arrived own s = h.own s :=
    fun s hs => Function.update_of_ne (Nat.ne_of_lt hs) _ _
  refine ⟨hk.names, hk.tokens, hk.texts, hk.pending, hk.keys, fun d hd ho v hv => ?_, hk.opens,
    fun d hd ho => ?_, fun c hc ho => ?_, fun d hd => ?_, fun c hc => ?_, hk.fresh⟩
  · exact (hown _ (hk.waiting d hd)).trans (hk.apart d hd ho v hv)
  · have hold := hk.ops d hd ho
    rw [OwnWait] at hold ⊢
    dsimp only
    rw [hown _ (hk.waiting d hd)]
    exact hold
  · dsimp only
    rw [hown _ (hk.past c hc)]
    exact hk.counted c hc ho
  · have hlt := hk.waiting d hd
    show d.event.serial < h.arrived + 1
    omega
  · have hlt := hk.past c hc
    show c.event.serial < h.arrived + 1
    omega

/-- An open arrives: its number is not an operation's. -/
theorem arrive_open (hk : Kept h t l) : Kept { h with arrived := h.arrived + 1 } t l := by
  have harrive := hk.arrive (h.own h.arrived)
  rw [Function.update_eq_self] at harrive
  exact harrive

theorem useName {k : UInt64} {n : Name} (hk : Kept h t l) (hn : t.names.lookup k = some n)
    (tick used : UInt64) : Kept h (t.useName k n tick used) l := by
  refine hk.forget (fun j m hj => ?_) rfl rfl rfl
  have hj' : (t.names.insert k { n with tick := tick, noted := used :: n.noted }).lookup j
      = some m := hj
  rw [Finmap.lookup_insert_eq] at hj'
  split at hj'
  · next he =>
    rw [he, ← Option.some.inj hj']
    exact ⟨n, hn, rfl⟩
  · exact ⟨m, hj', rfl⟩

/-- What waits on a token is an operation of the open that is counted under the token's name. -/
theorem token_name (hk : Kept h t l) {n : Name} (hd : OwnWait h d)
    (ht : isToken d.waiting = true) (hn : t.names.lookup d.waiting = some n) {o : RegistryEvent}
    (ho : h.own d.event.serial = some o) : CountedAs t.counted o n.text := by
  rcases hd with ⟨-, o', hopener, hown⟩ | ⟨hno, -⟩
  · obtain ⟨o'', hopener', hcounted⟩ := hk.tokens d.waiting n hn ht
    rw [ho] at hown
    rw [hopener] at hopener'
    rcases hown with hown | hown
    · cases hown
    · rw [Option.some.inj hown, Option.some.inj hopener']
      exact hcounted
  · rw [ht] at hno
    exact absurd hno (by simp)

/-- What waits on a name is an operation of the open that is counted under it. -/
theorem own_name (hk : Kept h t l) {n : Name} (hd : d ∈ l) (hop : d.event.isOpen = false)
    (hn : t.names.lookup d.waiting = some n) {o : RegistryEvent}
    (ho : h.own d.event.serial = some o) : CountedAs t.counted o n.text := by
  rcases hk.ops d hd hop with hwait | ⟨ht, hown⟩
  · exact hk.token_name (Or.inl hwait) hwait.1 hn ho
  · rcases hown with hown | hown
    · rw [hown] at ho
      cases ho
    · rw [ho] at hown
      rcases hk.names d.waiting ht with hs | ⟨x, -, -, -, hp⟩
      · exact hs n.text (by rw [RegistryIoTable.text, hn]; rfl) o hown.symm
      · -- its own open waits, and so it waits for that
        rw [hk.apart d hd hop _ hp] at ho
        cases ho

theorem defer {waiting token : UInt64} (hk : Kept h t t.deferred) (hs : e.serial < h.arrived)
    (hopen : e.isOpen = true → OwnToken h ⟨e, pid, time, tick, waiting, token⟩)
    (hop : e.isOpen = false → OwnWait h ⟨e, pid, time, tick, waiting, token⟩)
    (hapart : e.isOpen = false → ∀ v, t.pendingOpens.lookup waiting = some v →
      h.own e.serial = none)
    (hnames : token ≠ 0 → e.names (t.unnamedBase waiting e.name) true = true)
    (hlatest : e.names (t.unnamedBase waiting e.name) true = true →
      ∀ o, h.holder e.keyObject = some o → o = e) :
    Kept h (t.defer env e pid time tick waiting token)
      (t.defer env e pid time tick waiting token).deferred := by
  unfold RegistryIoTable.defer
  split
  · split
    · next ho =>
      have hown := hopen ho
      have hc : Kept h (t.count env e (t.unnamedBase waiting e.name) pid time tick true)
          t.deferred := by
        refine hk.count hs true (fun hno => ?_) fun hn => ⟨hown.2.1, hlatest hn⟩
        rw [ho] at hno
        exact absurd hno (by simp)
      rw [RegistryIoTable.nameToken_deferred]
      exact hc.nameToken hown (RegistryIoTable.unnamedBase_ne_nil _ _)
        ⟨_, List.mem_cons_self, rfl, rfl⟩
        fun h0 _ => settled_names (hnames h0) (hlatest (hnames h0))
    · next ho =>
      have hno : e.isOpen = false := by simpa using ho
      have hnot : ∀ name, ¬ e.names name true = true := by
        intro name hn
        simp [RegistryEvent.names, hno] at hn
      split
      · next n hn =>
        refine hk.count hs true (fun _ o hown => ?_) fun hn => absurd hn (hnot _)
        split
        · next htok => exact Or.inr (hk.token_name (hop hno) htok hn hown)
        · exact Or.inl rfl
      · exact hk.count hs true (fun _ _ _ => Or.inl rfl) fun hn => absurd hn (hnot _)
  · exact (hk.append hs hopen hop hapart).of_eq rfl rfl rfl rfl

/-- Another operation than an open: it is the latest open's of its key object. -/
theorem onOperation (hk : Kept h t t.deferred) (ho : e.isOpen = false)
    (hs : e.serial = h.arrived) (ht : isToken e.keyObject = false)
    (hnot : e.keyObject ∈ t.names → ¬Awaited t t.deferred e.keyObject) :
    Kept { h with
        own := Function.update h.own e.serial (h.holder e.keyObject), arrived := h.arrived + 1 }
      (t.onOperation env e pid time tick) (t.onOperation env e pid time tick).deferred := by
  have hk' := hk.arrive (h.holder e.keyObject)
  rw [← hs] at hk' ⊢
  have hown : ∀ o, Function.update h.own e.serial (h.holder e.keyObject) e.serial = some o →
      h.holder e.keyObject = some o := by
    intro o hown
    rwa [Function.update_self] at hown
  have hnames : ∀ name, ¬ e.names name true = true := by
    intro name hn
    simp [RegistryEvent.names, ho] at hn
  have hlt : e.serial < e.serial + 1 := Nat.lt_succ_self _
  unfold RegistryIoTable.onOperation
  split
  · next n hn =>
    refine (hk'.useName hn tick tick).count hlt true (fun _ o hso => Or.inr ?_)
      fun hn => absurd hn (hnames _)
    have hsettled := hk.settled_of_not_awaited ht hnot
    exact hsettled n.text (by rw [RegistryIoTable.text, hn]; rfl) o (hown o hso)
  · split
    · next token hp =>
      obtain ⟨htok, o, hopener, hholder⟩ := hk.pending e.keyObject token hp
      refine hk'.defer hlt (fun hno => ?_) (fun _ => Or.inl ⟨htok, o, hopener, Or.inr ?_⟩)
        (fun _ v hv => ?_) (fun h0 => absurd rfl h0) fun hn => absurd hn (hnames _)
      · rw [ho] at hno
        exact absurd hno (by simp)
      · exact (Function.update_self ..).trans hholder
      · have hno := (hk.keys token v hv).2
        rw [htok] at hno
        exact absurd hno (by simp)
    · next hp =>
      split
      · exact hk'.count hlt true (fun _ _ _ => Or.inl rfl) fun hn => absurd hn (hnames _)
      · refine hk'.defer hlt (fun hno => ?_) (fun _ => Or.inr ⟨ht, Or.inr ?_⟩)
          (fun _ v hv => absurd (hp.symm.trans hv) (Option.some_ne_none v).symm)
          (fun h0 => absurd rfl h0) fun hn => absurd hn (hnames _)
        · rw [ho] at hno
          exact absurd hno (by simp)
        · exact Function.update_self ..

/-- `FlushWaiting`, where the opens it counts are the latest of their addresses. -/
theorem flushWaiting {object : UInt64} {stamp : ℤ} (hk : Kept h t t.deferred)
    (hlatest : ∀ d ∈ t.deferred, RegistryIoTable.flushes object stamp d = true →
      d.event.opens = true → d.event.keyObject ≠ 0 →
        h.holder d.event.keyObject = some d.event) :
    Kept h (t.flushWaiting env object stamp) (t.flushWaiting env object stamp).deferred
      ∧ ∀ k, Settled h t k → Settled h (t.flushWaiting env object stamp) k := by
  unfold RegistryIoTable.flushWaiting
  split
  · exact ⟨hk, fun _ hs => hs⟩
  · have hsweep : Kept h (t.flushSweep env object stamp).1 (t.flushSweep env object stamp).2
        ∧ (t.flushSweep env object stamp).2 ⊆ t.deferred
        ∧ ∀ k, Settled h t k → Settled h (t.flushSweep env object stamp).1 k := by
      refine RegistryIoTable.flushSweep_invariant
        (P := fun s q => Kept h s q ∧ q ⊆ t.deferred ∧ ∀ k, Settled h t k → Settled h s k)
        ⟨hk.of_eq rfl rfl rfl rfl, List.Subset.refl _, fun _ hs => hs⟩ ?_
      rintro s kept d rest ⟨hs, hsub, hsettled⟩ hwaiting hstamp
      have hd : d ∈ kept ++ d :: rest := by simp
      set name := if d.event.isOpen then s.unnamedBase object d.event.name else [] with hname
      -- only an open names its key object, and it is the latest of it
      have hholder : d.event.names name true = true →
          ∀ o, h.holder d.event.keyObject = some o → o = d.event := by
        intro hn o ho
        simp only [RegistryEvent.names, Bool.and_eq_true, Bool.and_true, decide_eq_true_eq,
          Bool.not_eq_true', ne_eq] at hn
        obtain ⟨⟨⟨hopen, hkey⟩, -⟩, hok⟩ := hn
        have hown := hs.opens d hd hopen
        have hlast := hlatest d (hsub hd) (by
          simp [RegistryIoTable.flushes, hwaiting, hstamp]) (by
          simp [RegistryEvent.opens, hopen, hok, hown.1]) hkey
        rw [hlast] at ho
        exact (Option.some.inj ho).symm
      have hcount : Kept h (s.count env d.event name d.pid d.time d.tick true)
          (kept ++ d :: rest) := by
        refine hs.count (hs.waiting d hd) true (fun hno _ _ => Or.inl (by simp [hname, hno]))
          fun hn => ⟨?_, hholder hn⟩
        exact (hs.opens d hd (by simp [RegistryEvent.names] at hn; tauto)).2.1
      have hrest : Kept h (s.count env d.event name d.pid d.time d.tick true) (kept ++ rest) := by
        refine hcount.remove fun hopens hp => ?_
        have hkey := (hs.keys d.event.keyObject d.token hp).1
        simp only [RegistryEvent.opens, Bool.and_eq_true, Bool.not_eq_true'] at hopens
        obtain ⟨⟨hopen, -⟩, hok⟩ := hopens
        have hne : name ≠ [] := by
          rw [hname, if_pos hopen]
          exact RegistryIoTable.unnamedBase_ne_nil _ _
        have hn : d.event.names name true = true := by
          simp [RegistryEvent.names, hopen, hkey, hne, hok]
        exact settled_names hn (hholder hn)
      refine ⟨hrest.of_eq rfl rfl rfl rfl, fun x hx => hsub (mem_skip hx), fun k hsk => ?_⟩
      exact settled_count (hsettled k hsk) hholder
    exact ⟨hsweep.1.of_eq rfl rfl rfl rfl, hsweep.2.2⟩

/-- An address of which no key was opened: its pending open is forgotten if its name is settled. -/
theorem newKeyObject {object : UInt64} {stamp : ℤ} (hk : Kept h t t.deferred)
    (hsettled : Settled h t object)
    (hlatest : ∀ d ∈ t.deferred, RegistryIoTable.flushes object stamp d = true →
      d.event.opens = true → d.event.keyObject ≠ 0 →
        h.holder d.event.keyObject = some d.event) :
    Kept h (t.newKeyObject env object stamp) (t.newKeyObject env object stamp).deferred := by
  unfold RegistryIoTable.newKeyObject
  split
  · exact hk
  · obtain ⟨hflushed, hkeeps⟩ := @flushWaiting env _ _ _ stamp hk hlatest
    exact (hflushed.settle (hkeeps object hsettled)).of_eq rfl rfl rfl rfl

/-- An address that a key was opened at: nothing is left of its name. -/
theorem newKeyObject_erased {object : UInt64} {stamp : ℤ} (hk : Kept h t t.deferred)
    (h0 : object ≠ 0)
    (hlatest : ∀ d ∈ t.deferred, RegistryIoTable.flushes object stamp d = true →
      d.event.opens = true → d.event.keyObject ≠ 0 →
        h.holder d.event.keyObject = some d.event) :
    Kept h { t.newKeyObject env object stamp with
        names := (t.newKeyObject env object stamp).names.erase object }
        (t.newKeyObject env object stamp).deferred
      ∧ ∀ k n, (t.newKeyObject env object stamp).names.lookup k = some n → n.text ≠ [] := by
  unfold RegistryIoTable.newKeyObject
  rw [if_neg h0]
  obtain ⟨hflushed, -⟩ := @flushWaiting env _ _ _ stamp hk hlatest
  have herased : Kept h { t.flushWaiting env object stamp with
      names := (t.flushWaiting env object stamp).names.erase object }
      (t.flushWaiting env object stamp).deferred := by
    refine hflushed.forget (fun k n hn => ⟨n, ?_, rfl⟩) rfl rfl rfl
    dsimp only at hn
    rw [Finmap.lookup_erase_eq] at hn
    split at hn
    · cases hn
    · exact hn
  refine ⟨(herased.settle fun text htext => ?_).of_eq rfl rfl rfl rfl, hflushed.texts⟩
  rw [RegistryIoTable.text, Finmap.lookup_erase] at htext
  cases htext

/-- An open is counted at once, under some name, or has to wait. -/
theorem onOpen_cases (pid : UInt32) (time : ℤ) (tick : UInt64)
    (htexts : ∀ k n, (t.newKeyObject env e.keyObject e.stamp).names.lookup k = some n →
      n.text ≠ []) :
    (∃ name, name ≠ [] ∧ t.onOpen env e pid time tick
        = (t.newKeyObject env e.keyObject e.stamp).count env e name pid time tick true)
      ∨ t.onOpen env e pid time tick
        = (t.newKeyObject env e.keyObject e.stamp).deferOpen env e pid time tick := by
  unfold RegistryIoTable.onOpen
  dsimp only
  split
  · next name hn => exact Or.inl ⟨name, RegistryIoTable.openName_ne_nil htexts hn, rfl⟩
  · split
    · exact Or.inl ⟨_, RegistryIoTable.unnamedBase_ne_nil _ _, rfl⟩
    · exact Or.inr rfl

/-- An open that gives no key object its name. -/
theorem onOpen_nameless (ho : e.isOpen = true) (hr : isRetried e.status = false)
    (ht : isToken e.keyObject = false) (hs : e.serial < h.arrived)
    (hno : (e.keyObject ≠ 0 && !isFailure e.status) = false)
    (hk : Kept h (t.newKeyObject env e.keyObject e.stamp)
      (t.newKeyObject env e.keyObject e.stamp).deferred) :
    Kept h (t.onOpen env e pid time tick) (t.onOpen env e pid time tick).deferred := by
  have hnames : ∀ name, ¬ e.names name true = true := by
    intro name hn
    simp only [RegistryEvent.names, Bool.and_eq_true, Bool.and_true] at hn
    simp only [Bool.and_eq_false_iff] at hno
    rcases hno with hno | hno
    · rw [hn.1.1.2] at hno
      exact absurd hno (by simp)
    · rw [hn.2] at hno
      exact absurd hno (by simp)
  have hopen : ∀ {P : Prop}, e.isOpen = false → P := by
    intro P h0
    rw [ho] at h0
    exact absurd h0 (by simp)
  rcases onOpen_cases pid time tick hk.texts with ⟨name, -, heq⟩ | heq
  · rw [heq]
    exact hk.count hs true hopen fun hn => absurd hn (hnames _)
  · rw [heq, RegistryIoTable.deferOpen, if_neg (by rw [hno]; simp)]
    exact hk.defer hs (fun _ => ⟨hr, ht, fun h0 => absurd rfl h0⟩) hopen hopen
      (fun h0 => absurd rfl h0) fun hn => absurd hn (hnames _)

/-! ## an open that names its key object -/

section Takes

variable {object : UInt64}

/-- A key object that nothing of an earlier one is left of is the open's. -/
theorem take (hk : Kept h t l) (ht : isToken object = false)
    (hn : t.names.lookup object = none) (hp : t.pendingOpens.lookup object = none)
    (hfree : ∀ d ∈ l, d.event.isOpen = false → d.waiting = object →
      h.own d.event.serial = none) :
    Kept { h with holder := Function.update h.holder object (some e) } t l := by
  refine ⟨fun k hkt => ?_, hk.tokens, hk.texts, fun k v hv => ?_, hk.keys, hk.apart, hk.opens,
    fun d hd ho => ?_, hk.counted, hk.waiting, hk.past, hk.fresh⟩
  · by_cases hkey : k = object
    · refine Or.inl fun text htext => ?_
      rw [hkey, RegistryIoTable.text, hn] at htext
      cases htext
    · refine (hk.names k hkt).imp_left fun hs text htext o ho => hs text htext o ?_
      exact (Function.update_of_ne hkey _ _).symm.trans ho
  · obtain ⟨htok, o, hopener, hholder⟩ := hk.pending k v hv
    refine ⟨htok, o, hopener, ?_⟩
    have hne : k ≠ object := by
      rintro rfl
      rw [hp] at hv
      cases hv
    exact (Function.update_of_ne hne _ _).trans hholder
  · by_cases hw : d.waiting = object
    · exact Or.inr ⟨by rw [hw]; exact ht, Or.inl (hfree d hd ho hw)⟩
    · rcases hk.ops d hd ho with hl | ⟨htd, hown⟩
      · exact Or.inl hl
      · refine Or.inr ⟨htd, ?_⟩
        dsimp only
        rw [Function.update_of_ne hw]
        exact hown

/-- The next token is the latest open's of an address. -/
theorem take_token (hk : Kept h t l) (ht : isToken t.nextToken = true)
    (hkey : object ≠ 0 ∧ isToken object = false) (hn : t.names.lookup object = none)
    (hfree : ∀ d ∈ l, d.event.isOpen = false → d.waiting = object →
      h.own d.event.serial = none)
    (hholder : h.holder object = some e) :
    Kept { h with opener := Function.update h.opener t.nextToken (some e) }
      { t with
        nextToken := t.nextToken + 1
        pendingOpens := t.pendingOpens.insert object t.nextToken } l := by
  have hfresh := hk.fresh t.nextToken ht (UInt64.le_refl _)
  have hold : ∀ {k o}, h.opener k = some o →
      Function.update h.opener t.nextToken (some e) k = some o := by
    intro k o hko
    rw [Function.update_of_ne, hko]
    rintro rfl
    rw [hfresh] at hko
    cases hko
  have hpended : ∀ {k v}, (t.pendingOpens.insert object t.nextToken).lookup k = some v →
      k = object ∨ t.pendingOpens.lookup k = some v := by
    intro k v hv
    rw [Finmap.lookup_insert_eq] at hv
    split at hv
    · next he => exact Or.inl he
    · exact Or.inr hv
  refine ⟨fun k hkt => ?_, fun k n hn htk => ?_, hk.texts, fun k v hv => ?_, fun k v hv => ?_,
    fun d hd ho v hv => ?_, fun d hd ho => ?_, fun d hd ho => ?_, hk.counted, hk.waiting, hk.past,
    fun k htk hle => ?_⟩
  · rcases hk.names k hkt with hs | ⟨d, hd, ho, hdk, hp⟩
    · exact Or.inl hs
    · by_cases hobject : k = object
      · refine Or.inl fun text htext => ?_
        rw [hobject, RegistryIoTable.text, hn] at htext
        cases htext
      · exact Or.inr ⟨d, hd, ho, hdk, (Finmap.lookup_insert_of_ne _ hobject).trans hp⟩
  · obtain ⟨o, hopener, hcounted⟩ := hk.tokens k n hn htk
    exact ⟨o, hold hopener, hcounted⟩
  · have hv' : (t.pendingOpens.insert object t.nextToken).lookup k = some v := hv
    rw [Finmap.lookup_insert_eq] at hv'
    split at hv'
    · next he =>
      rw [← Option.some.inj hv', he]
      exact ⟨ht, e, Function.update_self .., hholder⟩
    · obtain ⟨htok, o, hopener, hlatest⟩ := hk.pending k v hv'
      exact ⟨htok, o, hold hopener, hlatest⟩
  · rcases hpended hv with rfl | hv
    · exact hkey
    · exact hk.keys k v hv
  · rcases hpended hv with hw | hv
    · exact hfree d hd ho hw
    · exact hk.apart d hd ho v hv
  · obtain ⟨hr, hkey, htoken⟩ := hk.opens d hd ho
    refine ⟨hr, hkey, fun h0 => ?_⟩
    obtain ⟨hopens, htk, hopener⟩ := htoken h0
    exact ⟨hopens, htk, hold hopener⟩
  · rcases hk.ops d hd ho with ⟨htd, o, hopener, hown⟩ | hr
    · exact Or.inl ⟨htd, o, hold hopener, hown⟩
    · exact Or.inr hr
  · have hlt : t.nextToken < k := UInt64.lt_of_lt_of_le (lt_succ_of_isToken ht) hle
    refine (Function.update_of_ne (UInt64.ne_of_lt hlt).symm _ _).trans ?_
    exact hk.fresh k htk (UInt64.le_of_lt hlt)

/-- Operations that came before their own open wait for it. -/
theorem retarget {stamp : ℤ} {token : UInt64} (hk : Kept h t t.deferred)
    (ht : isToken token = true) (hopener : h.opener token = some e)
    (hfree : ∀ d ∈ t.deferred, d.event.isOpen = false → d.waiting = object →
      h.own d.event.serial = none) :
    Kept h (t.retarget object stamp token) (t.retarget object stamp token).deferred := by
  obtain ⟨f, hdeferred, hf⟩ := @RegistryIoTable.retarget_deferred t object stamp token
  rw [hdeferred]
  have hmoved : Kept h t (t.deferred.map f) := by
    refine ⟨fun k hkt => ?_, hk.tokens, hk.texts, hk.pending, hk.keys, fun x hx ho => ?_,
      fun x hx ho => ?_, fun x hx ho => ?_, hk.counted, fun x hx => ?_, hk.past, hk.fresh⟩
    · rcases hk.names k hkt with hs | ⟨d, hd, hawaited⟩
      · exact Or.inl hs
      · refine Or.inr ⟨f d, List.mem_map_of_mem hd, ?_⟩
        rw [(hf d).1, (hf d).2.1]
        exact hawaited
    · obtain ⟨d, hd, rfl⟩ := List.mem_map.mp hx
      obtain ⟨hevent, -, hwaiting⟩ := hf d
      rw [hevent] at ho ⊢
      rcases hwaiting with hw | ⟨-, hr⟩
      · rw [hw]
        exact hk.apart d hd ho
      · simp only [RegistryIoTable.retargets, Bool.and_eq_true, decide_eq_true_eq] at hr
        exact fun _ _ => hfree d hd ho hr.1
    · obtain ⟨d, hd, rfl⟩ := List.mem_map.mp hx
      rw [OwnToken, (hf d).1, (hf d).2.1]
      rw [(hf d).1] at ho
      exact hk.opens d hd ho
    · obtain ⟨d, hd, rfl⟩ := List.mem_map.mp hx
      obtain ⟨hevent, -, hwaiting⟩ := hf d
      rw [hevent] at ho
      rw [OwnWait, hevent]
      rcases hwaiting with hw | ⟨hw, hr⟩
      · rw [hw]
        exact hk.ops d hd ho
      · rw [hw]
        simp only [RegistryIoTable.retargets, Bool.and_eq_true, decide_eq_true_eq] at hr
        exact Or.inl ⟨ht, e, hopener, Or.inl (hfree d hd ho hr.1)⟩
    · obtain ⟨d, hd, rfl⟩ := List.mem_map.mp hx
      rw [(hf d).1]
      exact hk.waiting d hd
  exact hmoved.of_eq (by simp) (by simp) (by simp) (by simp)

/-- A successful open is the latest one of its key object, and takes a token if it waits. -/
theorem onOpen_takes {s : RegistryIoTable} (hs : s = t.newKeyObject env e.keyObject e.stamp)
    (ho : e.opens = true) (hkey : e.keyObject ≠ 0) (ht : isToken e.keyObject = false)
    (hserial : e.serial < h.arrived)
    (hk : Kept h { s with names := s.names.erase e.keyObject } s.deferred)
    (htexts : ∀ k n, s.names.lookup k = some n → n.text ≠ [])
    (hp : s.pendingOpens.lookup e.keyObject = none)
    (hfree : ∀ d ∈ s.deferred, d.event.isOpen = false → d.waiting = e.keyObject →
      h.own d.event.serial = none)
    (htoken : (t.onOpen env e pid time tick).nextToken ≠ t.nextToken →
      isToken t.nextToken = true) :
    Kept { h with
        holder := Function.update h.holder e.keyObject (some e)
        opener := if (t.onOpen env e pid time tick).nextToken ≠ t.nextToken
          then Function.update h.opener t.nextToken (some e) else h.opener }
      (t.onOpen env e pid time tick) (t.onOpen env e pid time tick).deferred := by
  have hopens := ho
  simp only [RegistryEvent.opens, Bool.and_eq_true, Bool.not_eq_true'] at ho
  obtain ⟨⟨hopen, hretried⟩, hok⟩ := ho
  have hop : ∀ {P : Prop}, e.isOpen = false → P := by
    intro P h0
    rw [hopen] at h0
    exact absurd h0 (by simp)
  have hnext : s.nextToken = t.nextToken := by
    rw [hs]
    exact RegistryIoTable.newKeyObject_nextToken _ _
  have hname : (s.names.erase e.keyObject).lookup e.keyObject = none := Finmap.lookup_erase _ _
  have htaken := hk.take (e := e) ht hname hp hfree
  have hlatest : ∀ o, Function.update h.holder e.keyObject (some e) e.keyObject = some o →
      o = e := by
    intro o hold
    rw [Function.update_self] at hold
    exact (Option.some.inj hold).symm
  have hcases := onOpen_cases (t := t) (e := e) pid time tick (hs ▸ htexts)
  rw [← hs] at hcases
  rcases hcases with ⟨name, hne, heq⟩ | heq
  · -- counted at once: the name the address still had is overwritten
    rw [heq, RegistryIoTable.count_nextToken, hnext, if_neg (by simp)]
    have hnames : e.names name true = true := by
      simp [RegistryEvent.names, hopen, hkey, hne, hok]
    have hcount := @count env _ _ _ e name pid time tick htaken hserial true hop
      fun _ => ⟨ht, hlatest⟩
    refine (@of_text _ _ _ (s.count env e name pid time tick true).names hcount
      fun k => ?_).of_eq rfl rfl rfl rfl
    show (s.count env e name pid time tick true).text k = _
    rw [RegistryIoTable.count_text, RegistryIoTable.count_text]
    by_cases hke : k = e.keyObject
    · rw [if_pos ⟨hnames, hke⟩, if_pos ⟨hnames, hke⟩]
    · rw [if_neg fun hc => hke hc.2, if_neg fun hc => hke hc.2, RegistryIoTable.text,
        RegistryIoTable.text, Finmap.lookup_erase_ne hke]
  · have hwaits : (e.keyObject ≠ 0 && !isFailure e.status) = true := by simp [hkey, hok]
    have hnext' : (t.onOpen env e pid time tick).nextToken = t.nextToken + 1 := by
      rw [heq, RegistryIoTable.deferOpen_nextToken, if_pos hwaits, hnext]
    have hne : (t.onOpen env e pid time tick).nextToken ≠ t.nextToken := by
      rw [hnext']
      simp
    have htok := htoken hne
    rw [if_pos hne, heq, RegistryIoTable.deferOpen, if_pos hwaits]
    have hpended := htaken.take_token (e := e) (by rw [← hnext] at htok; exact htok) ⟨hkey, ht⟩
      hname hfree (Function.update_self e.keyObject (some e) h.holder)
    have hpend : Kept { h with
          holder := Function.update h.holder e.keyObject (some e)
          opener := Function.update h.opener t.nextToken (some e) }
        (s.pend e.keyObject) (s.pend e.keyObject).deferred := by
      rw [← hnext]
      exact hpended
    rw [hnext]
    have hopener : Function.update h.opener t.nextToken (some e) t.nextToken = some e :=
      Function.update_self ..
    refine (hpend.retarget htok hopener hfree).defer hserial (fun _ => ?_) hop hop (fun _ => ?_)
      fun _ => hlatest
    · exact ⟨hretried, ht, fun _ => ⟨hopens, htok, hopener⟩⟩
    · simp [RegistryEvent.names, hopen, hkey, hok, RegistryIoTable.unnamedBase_ne_nil]

end Takes

/-! ## the resolver's answers -/

/-- `ApplyDeferred` counts one operation that waited. -/
theorem applyOne {kept rest : List Deferred} (hk : Kept h t (kept ++ d :: rest)) :
    Kept h (t.applyOne env d) (kept ++ rest) := by
  have hd : d ∈ kept ++ d :: rest := by simp
  have hserial := hk.waiting d hd
  by_cases ho : d.event.isOpen = true
  · have hown := hk.opens d hd ho
    have hne : t.appliedName env d ≠ [] := RegistryIoTable.appliedName_ne_nil hk.texts
    obtain ⟨s, b, hnames, hpending, hcounted, hb, heq⟩ := t.applyOne_open env ho
    have hs : Kept h s (kept ++ d :: rest) := by
      have hnext := @RegistryIoTable.applyOne_nextToken env t d
      rw [heq, RegistryIoTable.nameToken_nextToken, RegistryIoTable.count_nextToken] at hnext
      exact hk.of_eq hnames hpending hcounted hnext
    rw [heq]
    -- it names its key object exactly while its token is the pending one
    have hlatest : d.event.names (t.appliedName env d) b = true →
        ∀ o, h.holder d.event.keyObject = some o → o = d.event := by
      intro hn o hholder
      have hbt : b = true := (RegistryEvent.names_iff.mp hn).1
      obtain ⟨htok, o', hopener, hlast⟩ := hk.pending _ _ (hb.mp hbt)
      have h0 : d.token ≠ 0 := by
        intro h0
        rw [h0] at htok
        exact absurd htok (by decide)
      rw [(hown.2.2 h0).2.2] at hopener
      rw [hholder, ← Option.some.inj hopener] at hlast
      exact Option.some.inj hlast
    have hsettled : s.pendingOpens.lookup d.event.keyObject = some d.token →
        d.event.opens = true →
          Settled h (s.count env d.event (t.appliedName env d) d.pid d.time d.tick b)
            d.event.keyObject := by
      intro hp hopens
      rw [hpending] at hp
      have hkey := (hk.keys _ _ hp).1
      simp only [RegistryEvent.opens, Bool.and_eq_true, Bool.not_eq_true'] at hopens
      have hn : d.event.names (t.appliedName env d) b = true := by
        simp [RegistryEvent.names, ho, hb.mpr hp, hkey, hne, hopens.2]
      exact settled_names hn (hlatest hn)
    have hcount : Kept h (s.count env d.event (t.appliedName env d) d.pid d.time d.tick b)
        (kept ++ d :: rest) := by
      refine hs.count hserial b (fun hno => ?_) fun hn => ⟨hown.2.1, hlatest hn⟩
      rw [ho] at hno
      exact absurd hno (by simp)
    have hrest := hcount.remove fun hopens hp => hsettled hp hopens
    exact hrest.nameToken hown hne ⟨_, List.mem_cons_self, rfl, rfl⟩ fun h0 hp =>
      hsettled hp (hown.2.2 h0).1
  · have hno : d.event.isOpen = false := by simpa using ho
    have hnames : ∀ name, ¬ d.event.names name true = true := by
      intro name hn
      simp [RegistryEvent.names, hno] at hn
    have hless : Kept h { t with
        waiting := (t.waiting.decrement d.waiting).eraseZero d.waiting } (kept ++ d :: rest) :=
      hk.of_eq rfl rfl rfl rfl
    have hopens : ∀ {P : Prop}, d.event.opens = true → P := by
      intro P hopens
      simp [RegistryEvent.opens, hno] at hopens
    unfold RegistryIoTable.applyOne
    dsimp only
    rw [if_neg ho]
    unfold RegistryIoTable.applyOperation
    split
    · next n hn =>
      refine remove ((hless.useName hn (max n.tick d.tick) d.tick).count hserial true
        (fun _ o hso => Or.inr ?_) fun hn => absurd hn (hnames _)) hopens
      exact hk.own_name hd hno hn hso
    · exact remove (hless.count hserial true (fun _ _ _ => Or.inl rfl) fun hn =>
        absurd hn (hnames _)) hopens

theorem applyDeferred (hk : Kept h t t.deferred) :
    Kept h (t.applyDeferred env) (t.applyDeferred env).deferred := by
  have hsweep : Kept h (t.applySweep env).1 (t.applySweep env).2 :=
    RegistryIoTable.applySweep_invariant hk fun _ _ _ _ hs _ => hs.applyOne
  exact hsweep.of_eq rfl rfl rfl rfl

/-- An answer of the resolver that is the latest open's name, or that this open is to replace. -/
theorem setName {object : UInt64} (hk : Kept h t l) (hne : name ≠ [])
    (ht : isToken object = false) (hname : Awaited t l object ∨
      ∀ o, h.holder object = some o → CountedAs t.counted o (env.registryName name)) :
    Kept h (t.setName env object name tick) l := by
  refine hk.insert_name (env.registryName_ne_nil hne) (fun _ => hname.symm) fun htok => ?_
  rw [ht] at htok
  exact absurd htok (by simp)

theorem prune (hk : Kept h t l) (tick : UInt64) : Kept h (t.prune tick) l := by
  refine hk.forget (fun k n hn => ⟨n, ?_, rfl⟩) rfl rfl rfl
  exact Finmap.of_lookup_eraseIf hn

theorem clear (hk : Kept h t l) : Kept h t.clear [] where
  names k _ := Or.inl fun _ hk => by simp [RegistryIoTable.text, RegistryIoTable.clear] at hk
  tokens k n hn := by simp [RegistryIoTable.clear] at hn
  texts k n hn := by simp [RegistryIoTable.clear] at hn
  pending k v hv := by simp [RegistryIoTable.clear] at hv
  keys k v hv := by simp [RegistryIoTable.clear] at hv
  apart _ hd := absurd hd List.not_mem_nil
  opens _ hd := absurd hd List.not_mem_nil
  ops _ hd := absurd hd List.not_mem_nil
  counted := hk.counted
  waiting _ hd := absurd hd List.not_mem_nil
  past := hk.past
  fresh := hk.fresh

end Kept

/-! ## events -/

section Events

variable {env : Env} {h : OpenHistory} {t t' : RegistryIoTable} {e : RegistryEvent}
  {pid : UInt32} {time : ℤ} {tick : UInt64}

theorem newKeyObject_pending {object : UInt64} (h0 : object ≠ 0) (stamp : ℤ) :
    (t.newKeyObject env object stamp).pendingOpens.lookup object = none := by
  unfold RegistryIoTable.newKeyObject
  rw [if_neg h0]
  exact Finmap.lookup_erase object _

/-- What still waits on a new key object was stamped after its open. -/
theorem newKeyObject_stamp {object : UInt64} (htally : Tallied t) (h0 : object ≠ 0) (stamp : ℤ) :
    ∀ d ∈ (t.newKeyObject env object stamp).deferred, d.waiting = object →
      stamp ≤ d.event.stamp := by
  intro d hd hw
  unfold RegistryIoTable.newKeyObject RegistryIoTable.flushWaiting at hd
  rw [if_neg h0] at hd
  split at hd
  · next hnone =>
    have hmem := htally.mem_waiting hd
    rw [hw] at hmem
    exact absurd hmem (Finmap.lookup_eq_none.mp hnone)
  · have hkept := RegistryIoTable.flushSweep_kept hd
    simpa [RegistryIoTable.flushes, hw] using hkept

theorem next_operation (ho : e.isOpen = false) (hn : t'.nextToken = t.nextToken) :
    h.next t t' (.onEvent e pid time tick) = { h with
      own := Function.update h.own e.serial (h.holder e.keyObject), arrived := h.arrived + 1 } := by
  simp [OpenHistory.next, RegistryEvent.opens, ho, hn]

theorem next_nameless (ho : e.isOpen = true) (hno : ¬ (e.opens = true ∧ e.keyObject ≠ 0))
    (hn : t'.nextToken = t.nextToken) :
    h.next t t' (.onEvent e pid time tick) = { h with arrived := h.arrived + 1 } := by
  simp only [OpenHistory.next, if_neg hno, if_pos ho, hn, ne_eq, not_true_eq_false, if_false]

theorem onOpen_nextToken_nameless
    (hno : (e.keyObject ≠ 0 && !isFailure e.status) = false) :
    (t.onOpen env e pid time tick).nextToken = t.nextToken := by
  unfold RegistryIoTable.onOpen
  dsimp only
  split
  · exact RegistryIoTable.newKeyObject_nextToken _ _
  · split
    · exact RegistryIoTable.newKeyObject_nextToken _ _
    · rw [RegistryIoTable.deferOpen_nextToken, hno, RegistryIoTable.newKeyObject_nextToken]
      rfl

end Events

/-! ## runs -/

/-- What every step keeps. -/
structure Attributed (f : Followed) : Prop where
  kept : Kept f.history f.table f.table.deferred
  tallied : Tallied f.table

namespace Attributed

variable {env : Env} {f : Followed} {c : Call} {e : RegistryEvent} {pid : UInt32} {time : ℤ}
  {tick : UInt64}

theorem onOpen (h : Attributed f) (hi : e.operation.isIgnored = false) (ho : e.isOpen = true)
    (hr : isRetried e.status = false) (hregular : Call.Regular f (.onEvent e pid time tick))
    (ht : TokenInRange env f.table (.onEvent e pid time tick))
    (hkeeps : KeepsNames env f (.onEvent e pid time tick)) :
    Kept (f.step env (.onEvent e pid time tick)).history
      (f.table.onOpen env e pid time tick) (f.table.onOpen env e pid time tick).deferred := by
  obtain ⟨hserial, htok⟩ := hregular
  have hstep : f.table.step env (.onEvent e pid time tick)
      = f.table.onOpen env e pid time tick := by
    simp [RegistryIoTable.step, RegistryIoTable.onEvent, hi, ho, hr]
  rw [TokenInRange, hstep] at ht
  rw [Followed.step, hstep]
  have hk := h.kept.arrive_open
  have hlt : e.serial < f.history.arrived + 1 := by omega
  by_cases hn : (e.keyObject ≠ 0 && !isFailure e.status) = true
  · simp only [Bool.and_eq_true, Bool.not_eq_true', decide_eq_true_eq] at hn
    obtain ⟨h0, hok⟩ := hn
    have hopens : e.opens = true := by simp [RegistryEvent.opens, ho, hr, hok]
    obtain ⟨hlatest, hearlier⟩ := hkeeps.1 ho hr h0
    obtain ⟨herased, htexts⟩ := @Kept.newKeyObject_erased env _ _ _ e.stamp hk h0 hlatest
    have hfree : ∀ d ∈ (f.table.newKeyObject env e.keyObject e.stamp).deferred,
        d.event.isOpen = false → d.waiting = e.keyObject →
          f.history.own d.event.serial = none := by
      intro d hd hno hw
      have hmem := (RegistryIoTable.newKeyObject_sublist _ _).subset hd
      exact hearlier hok d hmem hno hw (newKeyObject_stamp h.tallied h0 _ d hd hw)
    have htakes := Kept.onOpen_takes rfl hopens h0 htok hlt herased htexts (newKeyObject_pending h0 _)
      hfree ht
    simpa only [OpenHistory.next, if_pos ho, hopens, true_and, if_pos h0] using htakes
  · have hno : (e.keyObject ≠ 0 && !isFailure e.status) = false := by simpa using hn
    have hnot : ¬ (e.opens = true ∧ e.keyObject ≠ 0) := by
      rintro ⟨hopens, h0⟩
      simp only [RegistryEvent.opens, Bool.and_eq_true] at hopens
      exact hn (by simp [h0, hopens.2])
    have hflushed : Kept { f.history with arrived := f.history.arrived + 1 }
        (f.table.newKeyObject env e.keyObject e.stamp)
        (f.table.newKeyObject env e.keyObject e.stamp).deferred := by
      by_cases h0 : e.keyObject = 0
      · unfold RegistryIoTable.newKeyObject
        rw [if_pos h0]
        exact hk
      · have hfailed : isFailure e.status = true := by simpa [h0] using hno
        exact hk.newKeyObject (hk.settled_of_not_awaited htok
          (hkeeps.2 hi fun _ => hfailed)) (hkeeps.1 ho hr h0).1
    rw [next_nameless ho hnot (onOpen_nextToken_nameless hno)]
    exact hflushed.onOpen_nameless ho hr htok hlt hno

/-- **One step.** -/
theorem step (h : Attributed f) (hregular : c.Regular f) (ht : TokenInRange env f.table c)
    (hkeeps : KeepsNames env f c) : Attributed (f.step env c) := by
  refine ⟨?_, h.tallied.step c⟩
  cases c with
  | onEvent e pid time tick =>
    have hserial := hregular.1
    by_cases hi : e.operation.isIgnored = true
    · -- returned on at once: no open, and nothing changes
      have ho : e.isOpen = false := RegistryEvent.isOpen_of_ignored hi
      have hstep : f.table.step env (.onEvent e pid time tick) = f.table := by
        simp [RegistryIoTable.step, RegistryIoTable.onEvent, hi]
      rw [Followed.step, hstep, next_operation ho rfl, hserial]
      exact h.kept.arrive _
    · have hi' : e.operation.isIgnored = false := by simpa using hi
      by_cases ho : e.isOpen = true
      · by_cases hr : isRetried e.status = true
        · have hstep : f.table.step env (.onEvent e pid time tick) = f.table := by
            simp [RegistryIoTable.step, RegistryIoTable.onEvent, ho, hr]
          rw [Followed.step, hstep, next_nameless ho (by simp [RegistryEvent.opens, hr]) rfl]
          exact h.kept.arrive_open
        · have hr' : isRetried e.status = false := by simpa using hr
          have hopen := h.onOpen hi' ho hr' hregular ht hkeeps
          simpa [Followed.step, RegistryIoTable.step, RegistryIoTable.onEvent, hi', ho, hr']
            using hopen
      · have ho' : e.isOpen = false := by simpa using ho
        have hstep : f.table.step env (.onEvent e pid time tick)
            = f.table.onOperation env e pid time tick := by
          simp [RegistryIoTable.step, RegistryIoTable.onEvent, hi', ho']
        rw [Followed.step, hstep, next_operation ho' RegistryIoTable.onOperation_nextToken]
        exact h.kept.onOperation ho' hserial hregular.2
          (hkeeps.2 hi' fun ho => absurd ho (by simp [ho']))
  | takeUnnamed => exact h.kept.of_eq rfl rfl rfl rfl
  | setName object name tick => exact h.kept.setName hregular.1 hregular.2 hkeeps
  | nameFailed => exact h.kept.of_eq rfl rfl rfl rfl
  | applyDeferred => exact h.kept.applyDeferred
  | prune tick => exact h.kept.prune tick
  | removeProcess => exact h.kept.of_eq rfl rfl rfl rfl
  | clear => exact h.kept.clear

end Attributed

/--
**Every operation is counted under the name its key object's latest open was counted under, or as
unnamed**, in every run whose steps keep the names to the latest opens.
-/
theorem operations_follow_their_open (env : Env) (calls : List Call)
    (hr : Along (Followed.step env) (fun f c => c.Regular f) {} calls)
    (ht : Along (Followed.step env) (fun f c => TokenInRange env f.table c) {} calls)
    (hk : Along (Followed.step env) (KeepsNames env) {} calls) :
    WellNamed (run (Followed.step env) {} calls).history
      (run (Followed.step env) {} calls).table.counted := by
  have hrun : Attributed (run (Followed.step env) {} calls) := by
    refine run_invariant (Followed.step env) Attributed
      (fun f c hf hok => hf.step hok.1 hok.2.1 hok.2.2) ?_ (hr.and (ht.and hk))
    exact ⟨Kept.start, Tallied.start⟩
  exact hrun.kept.counted

/-- A relative open waits with an operation of it, another key takes its address, and the resolver
names the base. -/
def waitingOpenTaken : List Call :=
  [ .onEvent { operation := .openKey, keyObject := 0x10, baseObject := 0x20, stamp := 1,
               name := wide "rel", serial := 0 } 7 1 1,
    .onEvent { operation := .setValue, keyObject := 0x10, stamp := 2, serial := 1 } 7 2 2,
    .onEvent { operation := .openKey, keyObject := 0x10, stamp := 3,
               name := wide "\\REGISTRY\\MACHINE\\X", serial := 2 } 7 3 3,
    .onEvent { operation := .setValue, keyObject := 0x10, stamp := 4, serial := 3 } 7 4 4,
    .takeUnnamed, .setName 0x20 (wide "\\REGISTRY\\USER\\Y") 5,
    .applyDeferred, .applyDeferred ]

theorem operations_follow_their_open_taken :
    WellNamed (run (Followed.step Env.ascii) {} waitingOpenTaken).history
      (run (Followed.step Env.ascii) {} waitingOpenTaken).table.counted :=
  operations_follow_their_open Env.ascii waitingOpenTaken (by decide) (by decide) (by decide)

/-! ## a flush that names a taken address -/

/-- A relative open waits, another key takes its address, then its base's address is taken too. -/
def baseTakenLast : List Operation :=
  [ ⟨{ operation := .openKey, keyObject := 0x10, baseObject := 0x20, stamp := 1,
       name := wide "rel", serial := 0 }, 7, 1, 1⟩,
    ⟨{ operation := .openKey, keyObject := 0x10, stamp := 2,
       name := wide "\\REGISTRY\\MACHINE\\X", serial := 1 }, 7, 2, 2⟩,
    ⟨{ operation := .openKey, keyObject := 0x20, stamp := 3,
       name := wide "\\REGISTRY\\MACHINE\\Y", serial := 2 }, 7, 3, 3⟩,
    ⟨{ operation := .setValue, keyObject := 0x10, stamp := 4, serial := 3 }, 7, 4, 4⟩ ]

/-- `FlushWaiting` counts the open of the base's address and names its key object after it, which
another key has: an operation on that key is counted under the earlier one's name. -/
theorem flushed_open_misnames :
    ¬ ∀ (env : Env) (ops : List Operation),
      (ops.map fun o => o.event.stamp).Pairwise (· < ·) →
      Along (Followed.step env) (fun f c => c.Regular f) {} (ops.map Operation.call) →
      Along (Followed.step env) (fun f c => TokenInRange env f.table c) {}
          (ops.map Operation.call) →
        WellNamed (run (Followed.step env) {} (ops.map Operation.call)).history
          (run (Followed.step env) {} (ops.map Operation.call)).table.counted := by
  intro hall
  have h := hall Env.ascii baseTakenLast (by decide) (by decide) (by decide)
  revert h
  decide

end WinSys.Registry
