import WinSys.Registry.Attribution
import WinSys.Registry.Orderly
import Mathlib.Data.List.MinMax

/-!
# Which key a base's address was

`BaseHistory` records, beside the table, which keys were opened at which address and what the
resolver answered. Two invariants over it, each for the queue as a sweep leaves it so far:

* `Latest`: the pending open of an address is the last one delivered of it
* `Based`: the base of a waiting relative open is the key that held its address when the open was
  issued, has that key's name if it has one, and has one once its token does
-/

namespace WinSys.Registry

open Infra

/-! ## history -/

/-- What was opened and what was answered, in the calls' own terms. -/
structure BaseHistory where
  /-- The successful opens of key objects, the latest delivered first. -/
  opened : List RegistryEvent := []
  /-- The resolver's last answer, as it is shown. -/
  answered : UInt64 → Option WString := fun _ => none

namespace BaseHistory

/-- The open of an address that was delivered last. -/
def holder (b : BaseHistory) (object : UInt64) : Option RegistryEvent :=
  b.opened.find? fun o => o.keyObject = object

/-- The open whose key held an address at a time: the last one by then, by the events' own times. -/
def heldAt (b : BaseHistory) (object : UInt64) (stamp : ℤ) : Option RegistryEvent :=
  -- the integers' order itself, so that it can be computed whatever else is known of them
  @List.argmax _ ℤ Int.instLinearOrder.toPreorder Int.decLt RegistryEvent.stamp
    (b.opened.filter fun o => o.keyObject = object && o.stamp ≤ stamp)

/-- An open is delivered. -/
def deliver (b : BaseHistory) (e : RegistryEvent) : BaseHistory :=
  { b with opened := e :: b.opened }

/-- The resolver names a key object. -/
def answer (b : BaseHistory) (object : UInt64) (name : WString) : BaseHistory :=
  { b with answered := Function.update b.answered object (some name) }

end BaseHistory

/-- A waiting relative open is to be named after an address. -/
def IsBase (l : List Deferred) (object : UInt64) : Prop :=
  ∃ d ∈ l, d.IsRelative ∧ d.event.baseObject = object

instance (l : List Deferred) (object : UInt64) : Decidable (IsBase l object) :=
  inferInstanceAs (Decidable (∃ d ∈ l, _))

/-! ## who held an address -/

namespace BaseHistory

variable {b : BaseHistory} {e : RegistryEvent} {object : UInt64} {stamp : ℤ}

theorem holder_deliver_self : (b.deliver e).holder e.keyObject = some e := by
  simp [holder, deliver]

theorem holder_deliver_of_ne (h : object ≠ e.keyObject) :
    (b.deliver e).holder object = b.holder object := by
  simp [holder, deliver, h.symm]

theorem heldAt_deliver_of_ne (h : object ≠ e.keyObject) :
    (b.deliver e).heldAt object stamp = b.heldAt object stamp := by
  simp [heldAt, deliver, h.symm]

end BaseHistory

/-- A name of an address is its holder's, or the resolver's where no open was seen. -/
def Known (b : BaseHistory) (counted : List Counted) (object : UInt64) (name : WString) : Prop :=
  match b.holder object with
  | some o => CountedAs counted o name
  | none => b.answered object = some name

section Known

variable {b : BaseHistory} {counted counted' : List Counted} {e : RegistryEvent}
  {object : UInt64} {name : WString}

theorem Known.mono (hsub : counted ⊆ counted') (h : Known b counted object name) :
    Known b counted' object name := by
  cases hholder : b.holder object with
  | some o =>
    rw [Known, hholder] at h ⊢
    exact CountedAs.mono hsub h
  | none =>
    rw [Known, hholder] at h ⊢
    exact h

theorem Known.of_holder (hholder : b.holder object = some e) (h : CountedAs counted e name) :
    Known b counted object name := by
  rw [Known, hholder]
  exact h

theorem Known.deliver (h : Known b counted object name) (hne : object ≠ e.keyObject) :
    Known (b.deliver e) counted object name := by
  rw [Known, BaseHistory.holder_deliver_of_ne hne]
  exact h

end Known

/-! ## pending opens are the latest -/

/-- A pending open is its address's last delivered one, and each has a token of its own. -/
structure Latest (b : BaseHistory) (t : RegistryIoTable) (l : List Deferred) : Prop where
  pending : ∀ k, t.pendingOpens.lookup k ≠ some 0
  opens : ∀ x ∈ l, x.token ≠ 0 →
    x.event.isOpen = true ∧ x.event.keyObject ≠ 0 ∧ isFailure x.event.status = false
  distinct : l.Pairwise fun x y => x.token = y.token → x.token = 0
  holder : ∀ x ∈ l, t.pendingOpens.lookup x.event.keyObject = some x.token →
    b.holder x.event.keyObject = some x.event

namespace Latest

variable {b : BaseHistory} {t : RegistryIoTable} {l : List Deferred} {d : Deferred}
  {e : RegistryEvent}

theorem start : Latest {} {} [] where
  pending k hk := by simp at hk
  opens _ hx := absurd hx List.not_mem_nil
  distinct := List.Pairwise.nil
  holder _ hx := absurd hx List.not_mem_nil

theorem sublist {l' : List Deferred} (h : Latest b t l) (hsub : l'.Sublist l) :
    Latest b t l' where
  pending := h.pending
  opens x hx := h.opens x (hsub.subset hx)
  distinct := h.distinct.sublist hsub
  holder x hx := h.holder x (hsub.subset hx)

/-- Pending opens may be forgotten. -/
theorem forget {t' : RegistryIoTable} (h : Latest b t l)
    (hp : ∀ k v, t'.pendingOpens.lookup k = some v → t.pendingOpens.lookup k = some v) :
    Latest b t' l where
  pending k hk := h.pending k (hp k 0 hk)
  opens := h.opens
  distinct := h.distinct
  holder x hx hk := h.holder x hx (hp _ _ hk)

/-- A change of the answers. -/
theorem of_opened {b' : BaseHistory} (h : Latest b t l) (hb : b'.opened = b.opened) :
    Latest b' t l where
  pending := h.pending
  opens := h.opens
  distinct := h.distinct
  holder x hx hk := by
    rw [BaseHistory.holder, hb]
    exact h.holder x hx hk

/-- An open is delivered of an address with no pending one. -/
theorem deliver (h : Latest b t l) (hp : t.pendingOpens.lookup e.keyObject = none) :
    Latest (b.deliver e) t l where
  pending := h.pending
  opens := h.opens
  distinct := h.distinct
  holder x hx hk := by
    have hne : x.event.keyObject ≠ e.keyObject := by
      intro he
      rw [he, hp] at hk
      exact absurd hk nofun
    rw [BaseHistory.holder_deliver_of_ne hne]
    exact h.holder x hx hk

/-- An element joins the queue. -/
theorem append (h : Latest b t l) (hfree : ∀ x ∈ l, x.token = d.token → x.token = 0)
    (hopens : d.token ≠ 0 →
      d.event.isOpen = true ∧ d.event.keyObject ≠ 0 ∧ isFailure d.event.status = false)
    (hholder : t.pendingOpens.lookup d.event.keyObject = some d.token →
      b.holder d.event.keyObject = some d.event) : Latest b t (l ++ [d]) where
  pending := h.pending
  opens x hx := by
    rcases List.mem_append.mp hx with hx | hx
    · exact h.opens x hx
    · rw [List.mem_singleton.mp hx]
      exact hopens
  distinct := by
    refine List.pairwise_append.mpr ⟨h.distinct, List.pairwise_singleton _ _, ?_⟩
    intro x hx y hy
    rw [List.mem_singleton.mp hy]
    exact hfree x hx
  holder x hx := by
    rcases List.mem_append.mp hx with hx | hx
    · exact h.holder x hx
    · rw [List.mem_singleton.mp hx]
      exact hholder

/-- The other elements have other tokens. -/
theorem token_ne {kept rest : List Deferred} (h : Latest b t (kept ++ d :: rest))
    (h0 : d.token ≠ 0) {x : Deferred} (hx : x ∈ kept ++ rest) : x.token ≠ d.token := by
  obtain ⟨-, hrest, hkept⟩ := List.pairwise_append.mp h.distinct
  intro he
  rcases List.mem_append.mp hx with hx | hx
  · exact h0 (he ▸ hkept x hx d List.mem_cons_self he)
  · exact h0 ((List.pairwise_cons.mp hrest).1 x hx he.symm)

/-- The last delivered open of an address takes the next token. -/
theorem take {object token : UInt64} {f : Deferred → Deferred} (h : Latest b t l)
    (htoken : isToken token = true) (hfree : ∀ x ∈ l, x.token ≠ token)
    (hf : ∀ x, (f x).event = x.event ∧ (f x).token = x.token)
    {t' : RegistryIoTable} (hp : t'.pendingOpens = t.pendingOpens.insert object token) :
    Latest b t' (l.map f) where
  pending k hk := by
    rw [hp, Finmap.lookup_insert_eq] at hk
    split at hk
    · rw [Option.some.inj hk] at htoken
      exact absurd htoken (by decide)
    · exact h.pending k hk
  opens x hx hne := by
    obtain ⟨y, hy, rfl⟩ := List.mem_map.mp hx
    rw [(hf y).1]
    rw [(hf y).2] at hne
    exact h.opens y hy hne
  distinct := by
    rw [List.pairwise_map]
    refine h.distinct.imp fun {x y} hxy => ?_
    rw [(hf x).2, (hf y).2]
    exact hxy
  holder x hx hk := by
    obtain ⟨y, hy, rfl⟩ := List.mem_map.mp hx
    rw [(hf y).1, (hf y).2, hp, Finmap.lookup_insert_eq] at hk
    rw [(hf y).1]
    split at hk
    · exact absurd (Option.some.inj hk).symm (hfree y hy)
    · exact h.holder y hy hk

end Latest

/-! ## the bases' names -/

theorem text_erase {t : RegistryIoTable} {object k : UInt64} :
    RegistryIoTable.text { t with names := t.names.erase object } k
      = if k = object then none else t.text k := by
  rw [RegistryIoTable.text, Finmap.lookup_erase_eq]
  split
  · rfl
  · rfl

/-- What holds of the relative opens of a queue. -/
structure Based (b : BaseHistory) (t : RegistryIoTable) (l : List Deferred) : Prop where
  named : ∀ d ∈ l, d.IsRelative → ∀ n, t.text d.event.baseObject = some n →
    Known b t.counted d.event.baseObject n
  held : ∀ d ∈ l, d.IsRelative →
    b.heldAt d.event.baseObject d.event.stamp = b.holder d.event.baseObject
  /-- A token that is named has named its address, one that is not is that address's. -/
  settled : ∀ d ∈ l, d.IsRelative → isToken d.waiting = true →
    (t.text d.waiting ≠ none → t.text d.event.baseObject ≠ none)
      ∧ ∀ x ∈ l, x.token = d.waiting → x.event.keyObject = d.event.baseObject
        ∧ t.pendingOpens.lookup d.event.baseObject = some x.token

namespace Based

variable {env : Env} {b : BaseHistory} {t t' : RegistryIoTable} {l : List Deferred}
  {d : Deferred} {e : RegistryEvent} {name : WString} {pid : UInt32} {time : ℤ} {tick : UInt64}

theorem start : Based {} {} [] where
  named _ hd := absurd hd List.not_mem_nil
  held _ hd := absurd hd List.not_mem_nil
  settled _ hd := absurd hd List.not_mem_nil

theorem subset {l' : List Deferred} (h : Based b t l) (hsub : l' ⊆ l) : Based b t l' where
  named d hd := h.named d (hsub hd)
  held d hd := h.held d (hsub hd)
  settled d hd hr ht := by
    obtain ⟨hnamed, hopen⟩ := h.settled d (hsub hd) hr ht
    exact ⟨hnamed, fun x hx => hopen x (hsub hx)⟩

/-- Addresses get names, each that is a base its holder's. -/
theorem rename (h : Based b t l) (hcounted : t.counted ⊆ t'.counted)
    (hp : t'.pendingOpens = t.pendingOpens)
    (htext : ∀ k, t'.text k = t.text k ∨ isToken k = false
      ∧ ∃ n, t'.text k = some n ∧ (IsBase l k → Known b t'.counted k n)) : Based b t' l where
  named d hd hr n hn := by
    rcases htext d.event.baseObject with he | ⟨-, m, hm, hknown⟩
    · rw [he] at hn
      exact (h.named d hd hr n hn).mono hcounted
    · rw [hm] at hn
      rw [← Option.some.inj hn]
      exact hknown ⟨d, hd, hr, rfl⟩
  held := h.held
  settled d hd hr ht := by
    obtain ⟨hnamed, hopen⟩ := h.settled d hd hr ht
    refine ⟨fun hw => ?_, fun x hx htoken => by rw [hp]; exact hopen x hx htoken⟩
    have hwaiting : t'.text d.waiting = t.text d.waiting := by
      refine (htext d.waiting).resolve_right fun hno => ?_
      rw [ht] at hno
      exact absurd hno.1 (by simp)
    rw [hwaiting] at hw
    rcases htext d.event.baseObject with he | ⟨-, m, hm, -⟩
    · rw [he]
      exact hnamed hw
    · rw [hm]
      simp

/-- The texts and the pending opens stay. -/
theorem of_text (h : Based b t l) (htext : ∀ k, t'.text k = t.text k)
    (hp : t'.pendingOpens = t.pendingOpens) (hcounted : t.counted ⊆ t'.counted) : Based b t' l :=
  h.rename hcounted hp fun k => Or.inl (htext k)

/-- Counting an event: an open may name its key object if that is no base, or it holds it. -/
theorem count (h : Based b t l) (x : Bool)
    (hnames : e.names name x = true → isToken e.keyObject = false
      ∧ (IsBase l e.keyObject → b.holder e.keyObject = some e)) :
    Based b (t.count env e name pid time tick x) l := by
  refine h.rename (List.subset_cons_self _ _) rfl fun k => ?_
  rw [RegistryIoTable.count_text]
  split
  · next hn =>
    obtain ⟨hn, rfl⟩ := hn
    obtain ⟨ht, hholder⟩ := hnames hn
    refine Or.inr ⟨ht, name, rfl, fun hbase => ?_⟩
    exact Known.of_holder (hholder hbase) ⟨_, List.mem_cons_self, rfl, rfl⟩
  · exact Or.inl rfl

/-- An operation names nothing. -/
theorem count_operation (h : Based b t l) (ho : e.isOpen = false) (x : Bool) :
    Based b (t.count env e name pid time tick x) l :=
  h.count x fun hn => by simp [RegistryEvent.names, ho] at hn

/-- The pending open of an address is forgotten, on whose token no relative open waits. -/
theorem unpend {object : UInt64} (h : Based b t l)
    (hno : ∀ d ∈ l, d.IsRelative → d.event.baseObject = object → isToken d.waiting = false)
    (htext : ∀ k, t'.text k = t.text k)
    (hp : t'.pendingOpens = t.pendingOpens.erase object) (hcounted : t'.counted = t.counted) :
    Based b t' l where
  named d hd hr n hn := by
    rw [htext] at hn
    rw [hcounted]
    exact h.named d hd hr n hn
  held := h.held
  settled d hd hr ht := by
    obtain ⟨hnamed, hopen⟩ := h.settled d hd hr ht
    have hne : d.event.baseObject ≠ object := by
      intro he
      rw [hno d hd hr he] at ht
      exact absurd ht (by simp)
    rw [htext, htext, hp, Finmap.lookup_erase_ne hne]
    exact ⟨hnamed, hopen⟩

/-- An open is delivered of an address on whose token no relative open waits: the name the address
still has is an earlier key's. -/
theorem deliver (h : Based b t l) (ha : isToken e.keyObject = false)
    (hbase : ∀ d ∈ l, d.IsRelative → d.event.baseObject = e.keyObject → isToken d.waiting = false
      ∧ (b.deliver e).heldAt e.keyObject d.event.stamp = some e)
    (htext : ∀ k, t'.text k = if k = e.keyObject then none else t.text k)
    (hp : t'.pendingOpens = t.pendingOpens) (hcounted : t'.counted = t.counted) :
    Based (b.deliver e) t' l where
  named d hd hr n hn := by
    rw [htext] at hn
    split at hn
    · exact absurd hn nofun
    · next hne =>
      rw [hcounted]
      exact (h.named d hd hr n hn).deliver hne
  held d hd hr := by
    by_cases he : d.event.baseObject = e.keyObject
    · rw [he, (hbase d hd hr he).2, BaseHistory.holder_deliver_self]
    · rw [BaseHistory.heldAt_deliver_of_ne he, BaseHistory.holder_deliver_of_ne he]
      exact h.held d hd hr
  settled d hd hr ht := by
    obtain ⟨hnamed, hopen⟩ := h.settled d hd hr ht
    have hne : d.event.baseObject ≠ e.keyObject := by
      intro he
      rw [(hbase d hd hr he).1] at ht
      exact absurd ht (by simp)
    have hne' : d.waiting ≠ e.keyObject := by
      intro he
      rw [he, ha] at ht
      exact absurd ht (by simp)
    rw [htext, htext, if_neg hne, if_neg hne', hp]
    exact ⟨hnamed, hopen⟩

/-- What waits on the address of an open waits on its token instead, which has no name yet. -/
theorem retarget {object : UInt64} {token : UInt64} {f : Deferred → Deferred}
    (h : Based b t l) (hnone : t.text token = none) (hfree : ∀ x ∈ l, x.token ≠ token)
    (hno : ∀ d ∈ l, d.IsRelative → d.event.baseObject = object → isToken d.waiting = false)
    (hf : ∀ x ∈ l, (f x).event = x.event ∧ (f x).token = x.token
      ∧ ((f x).waiting = x.waiting ∨ (f x).waiting = token))
    (htext : ∀ k, t'.text k = t.text k)
    (hp : t'.pendingOpens = t.pendingOpens.insert object token) (hcounted : t'.counted = t.counted) :
    Based b t' (l.map f) where
  named x hx hr n hn := by
    obtain ⟨d, hd, rfl⟩ := List.mem_map.mp hx
    rw [Deferred.IsRelative, (hf d hd).1] at hr
    rw [(hf d hd).1, htext] at hn
    rw [(hf d hd).1, hcounted]
    exact h.named d hd hr n hn
  held x hx hr := by
    obtain ⟨d, hd, rfl⟩ := List.mem_map.mp hx
    rw [Deferred.IsRelative, (hf d hd).1] at hr
    rw [(hf d hd).1]
    exact h.held d hd hr
  settled x hx hr ht := by
    obtain ⟨d, hd, rfl⟩ := List.mem_map.mp hx
    obtain ⟨hevent, -, hwaiting⟩ := hf d hd
    rw [Deferred.IsRelative, hevent] at hr
    rw [hevent, htext, htext]
    rcases hwaiting with hw | hw
    · rw [hw] at ht ⊢
      obtain ⟨hnamed, hopen⟩ := h.settled d hd hr ht
      have hne : d.event.baseObject ≠ object := by
        intro he
        rw [hno d hd hr he] at ht
        exact absurd ht (by simp)
      refine ⟨hnamed, fun y hy htoken => ?_⟩
      obtain ⟨z, hz, rfl⟩ := List.mem_map.mp hy
      rw [(hf z hz).2.1] at htoken ⊢
      rw [(hf z hz).1, hp, Finmap.lookup_insert_of_ne _ hne]
      exact hopen z hz htoken
    · rw [hw]
      refine ⟨fun hsome => absurd hnone hsome, fun y hy htoken => ?_⟩
      obtain ⟨z, hz, rfl⟩ := List.mem_map.mp hy
      rw [(hf z hz).2.1] at htoken
      exact absurd htoken (hfree z hz)

/-- An element joins the queue: its token, if it has one, is its key object's pending one. -/
theorem append (h : Based b t l)
    (hd : d.IsRelative → isToken d.waiting = false ∧ t.text d.event.baseObject = none
      ∧ b.heldAt d.event.baseObject d.event.stamp = b.holder d.event.baseObject)
    (hopen : ∀ x ∈ l, x.IsRelative → isToken x.waiting = true → d.token = x.waiting →
      d.event.keyObject = x.event.baseObject
        ∧ t.pendingOpens.lookup x.event.baseObject = some d.token) : Based b t (l ++ [d]) where
  named x hx hr n hn := by
    rcases List.mem_append.mp hx with hx | hx
    · exact h.named x hx hr n hn
    · rw [List.mem_singleton.mp hx] at hr hn
      rw [(hd hr).2.1] at hn
      exact absurd hn nofun
  held x hx hr := by
    rcases List.mem_append.mp hx with hx | hx
    · exact h.held x hx hr
    · rw [List.mem_singleton.mp hx] at hr ⊢
      exact (hd hr).2.2
  settled x hx hr ht := by
    rcases List.mem_append.mp hx with hx | hx
    · obtain ⟨hnamed, hold⟩ := h.settled x hx hr ht
      refine ⟨hnamed, fun y hy htoken => ?_⟩
      rcases List.mem_append.mp hy with hy | hy
      · exact hold y hy htoken
      · rw [List.mem_singleton.mp hy] at htoken ⊢
        exact hopen x hx hr ht htoken
    · rw [List.mem_singleton.mp hx] at hr ht
      rw [(hd hr).1] at ht
      exact absurd ht (by simp)

/-- An open that waited is counted: its token gets its name, and its key object while its token
is the pending one. -/
theorem applied {kept rest : List Deferred} {next : UInt64} {x : Deferred}
    (h : Based b t (kept ++ x :: rest)) (hlatest : Latest b t (kept ++ x :: rest))
    (hq : Ordered (kept ++ x :: rest) next) (hne : name ≠ [])
    (htext : ∀ k, t'.text k = if x.token ≠ 0 ∧ k = x.token then some name
      else if x.event.names name
          (decide (t.pendingOpens.lookup x.event.keyObject = some x.token)) = true
            ∧ k = x.event.keyObject then some name
      else t.text k)
    (hp : t'.pendingOpens = if x.token ≠ 0 ∧ t.pendingOpens.lookup x.event.keyObject = some x.token
      then t.pendingOpens.erase x.event.keyObject else t.pendingOpens)
    (hcounted : t'.counted = ⟨x.event, name, x.pid, x.time, x.tick⟩ :: t.counted) :
    Based b t' (kept ++ rest) := by
  have hx : x ∈ kept ++ x :: rest := by simp
  have htoken : x.token ≠ 0 → isToken x.token = true := fun h0 =>
    ((hq.tokens x hx).resolve_left h0).1
  have hbase : ∀ d ∈ kept ++ rest, ¬(x.token ≠ 0 ∧ d.event.baseObject = x.token) := by
    rintro d hd ⟨h0, he⟩
    have ha := (hq.addresses d (mem_skip hd)).2
    rw [he, htoken h0] at ha
    exact absurd ha (by simp)
  refine ⟨fun d hd hr n hn => ?_, fun d hd => h.held d (mem_skip hd), fun d hd hr ht => ?_⟩
  · rw [htext, if_neg (hbase d hd)] at hn
    split at hn
    · next hnames =>
      obtain ⟨hnames, he⟩ := hnames
      have hpending := of_decide_eq_true (RegistryEvent.names_iff.mp hnames).1
      rw [← Option.some.inj hn, he]
      refine Known.of_holder (hlatest.holder x hx hpending) ?_
      rw [hcounted]
      exact ⟨_, List.mem_cons_self, rfl, rfl⟩
    · rw [hcounted]
      exact (h.named d (mem_skip hd) hr n hn).mono (List.subset_cons_self _ _)
  · obtain ⟨hnamed, hopen⟩ := h.settled d (mem_skip hd) hr ht
    have hkey : d.waiting ≠ x.event.keyObject := by
      intro he
      rw [he, (hq.addresses x hx).1] at ht
      exact absurd ht (by simp)
    refine ⟨fun hw => ?_, fun y hy hyt => ?_⟩
    · rw [htext, if_neg (hbase d hd)]
      by_cases he : d.waiting = x.token
      · -- it waits on this open: the address is the open's key object
        have h0 : x.token ≠ 0 := by
          intro h0
          rw [he, h0] at ht
          exact absurd ht (by decide)
        obtain ⟨hbo, hpend⟩ := hopen x hx he.symm
        obtain ⟨ho, hk0, hok⟩ := hlatest.opens x hx h0
        rw [← hbo] at hpend ⊢
        rw [if_pos ⟨by simp [RegistryEvent.names, ho, hk0, hok, hne, hpend], rfl⟩]
        simp
      · rw [htext, if_neg fun hc => he hc.2, if_neg fun hc => hkey hc.2] at hw
        split
        · simp
        · exact hnamed hw
    · obtain ⟨hyk, hpend⟩ := hopen y (mem_skip hy) hyt
      refine ⟨hyk, ?_⟩
      rw [hp]
      split
      · next hc =>
        have hne' : d.event.baseObject ≠ x.event.keyObject := by
          intro he
          rw [he, hc.2] at hpend
          exact hlatest.token_ne hc.1 hy (Option.some.inj hpend).symm
        rw [Finmap.lookup_erase_ne hne']
        exact hpend
      · exact hpend

end Based

end WinSys.Registry
