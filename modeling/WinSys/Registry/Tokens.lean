import WinSys.Registry.Frame

/-!
# Who names a token

A token stands for an open that waits: what waits on the token is counted once the open is. So as
long as the token has no name, its open must still wait, and an open that waits on a token must
come before that token's open in `m_Deferred`, or the two could wait for each other.

`Backed` says so, for the elements kept by a sweep so far as well as for the whole queue. Every
operation keeps it but these: `FlushWaiting`, which counts an open and does not name its token,
an operation that then waits on this token, and `Prune`, which may erase the name of a token
something waits on.
-/

namespace WinSys.Registry

open Infra

/-- The open that stands for a token. -/
def Deferred.Opens (o : Deferred) (token : UInt64) : Prop :=
  o.event.isOpen = true ∧ o.token = token

/-- An open that waits on a token comes before the token's open. -/
def OpensLater (named : UInt64 → Prop) : List Deferred → Prop
  | [] => True
  | d :: rest =>
    (d.event.isOpen = true → isToken d.waiting = true → ¬ named d.waiting →
      ∃ o ∈ rest, o.Opens d.waiting) ∧ OpensLater named rest

/-- The tokens waited on in a queue are named or have their open. -/
structure Backed (named : UInt64 → Prop) (l : List Deferred) : Prop where
  covered : ∀ d ∈ l, isToken d.waiting = true → ¬ named d.waiting → ∃ o ∈ l, o.Opens d.waiting
  later : OpensLater named l

variable {named named' : UInt64 → Prop} {l kept rest : List Deferred} {d : Deferred}

/-! ## opens come before their token's -/

namespace OpensLater

theorem mono (hn : ∀ d ∈ l, isToken d.waiting = true → named d.waiting → named' d.waiting)
    (h : OpensLater named l) : OpensLater named' l := by
  induction l with
  | nil => trivial
  | cons d rest ih =>
    obtain ⟨hd, hrest⟩ := h
    refine ⟨fun ho ht hnot => ?_, ih (fun x hx => hn x (List.mem_cons_of_mem d hx)) hrest⟩
    exact hd ho ht fun hnd => hnot (hn d List.mem_cons_self ht hnd)

/-- One element leaves: what waits on its token finds it named, or there is nothing such. -/
theorem remove (hn : ∀ k, isToken k = true → named k → named' k)
    (hout : ∀ token, isToken token = true → d.Opens token →
      named' token ∨ ∀ x ∈ kept ++ rest, x.waiting ≠ token)
    (h : OpensLater named (kept ++ d :: rest)) : OpensLater named' (kept ++ rest) := by
  induction kept with
  | nil => exact mono (fun x _ => hn x.waiting) h.2
  | cons x kept ih =>
    obtain ⟨hx, hkept⟩ := h
    refine ⟨fun ho ht hnot => ?_, ih (fun token ht hd => ?_) hkept⟩
    · obtain ⟨o, ho', hopens⟩ := hx ho ht fun hnd => hnot (hn _ ht hnd)
      rcases List.mem_append.mp ho' with hmem | hmem
      · exact ⟨o, List.mem_append_left _ hmem, hopens⟩
      · rcases List.mem_cons.mp hmem with rfl | hmem
        · rcases hout _ ht hopens with hnamed | hnone
          · exact absurd hnamed hnot
          · exact absurd rfl (hnone x List.mem_cons_self)
        · exact ⟨o, List.mem_append_right _ hmem, hopens⟩
    · refine (hout token ht hd).imp_right fun hnone y hy => ?_
      exact hnone y (List.mem_cons_of_mem _ hy)

/-- One element more, which is no open that waits on an unnamed token. -/
theorem append (hd : d.event.isOpen = true → isToken d.waiting = true → named d.waiting)
    (h : OpensLater named l) : OpensLater named (l ++ [d]) := by
  induction l with
  | nil => exact ⟨fun ho ht hnot => absurd (hd ho ht) hnot, trivial⟩
  | cons x rest ih =>
    obtain ⟨hx, hrest⟩ := h
    refine ⟨fun ho ht hnot => ?_, ih hrest⟩
    obtain ⟨o, ho', hopens⟩ := hx ho ht hnot
    exact ⟨o, List.mem_append_left _ ho', hopens⟩

/-- The last one of a queue is not before any other. -/
theorem named_of_last (h : OpensLater named (kept ++ d :: rest)) (hd : d.event.isOpen = true)
    (hlast : ∀ o ∈ rest, o.event.isOpen = false) (ht : isToken d.waiting = true) :
    named d.waiting := by
  induction kept with
  | nil =>
    by_contra hnot
    obtain ⟨o, ho, hopens, -⟩ := h.1 hd ht hnot
    rw [hlast o ho] at hopens
    exact absurd hopens (by simp)
  | cons x kept ih => exact ih h.2

end OpensLater

/-! ## changes of a queue -/

namespace Backed

/-- Names of tokens waited on stay. -/
theorem mono (hn : ∀ d ∈ l, isToken d.waiting = true → named d.waiting → named' d.waiting)
    (h : Backed named l) : Backed named' l where
  covered d hd ht hnot := h.covered d hd ht fun hnd => hnot (hn d hd ht hnd)
  later := h.later.mono hn

/-- One element leaves: its token is named or not waited on. -/
theorem remove (hn : ∀ k, isToken k = true → named k → named' k)
    (hout : ∀ token, isToken token = true → d.Opens token →
      named' token ∨ ∀ x ∈ kept ++ rest, x.waiting ≠ token)
    (h : Backed named (kept ++ d :: rest)) : Backed named' (kept ++ rest) where
  covered x hx ht hnot := by
    obtain ⟨o, ho, hopens⟩ := h.covered x (mem_skip hx) ht fun hnd => hnot (hn _ ht hnd)
    rcases List.mem_append.mp ho with hmem | hmem
    · exact ⟨o, List.mem_append_left _ hmem, hopens⟩
    · rcases List.mem_cons.mp hmem with rfl | hmem
      · rcases hout _ ht hopens with hnamed | hnone
        · exact absurd hnamed hnot
        · exact absurd rfl (hnone x hx)
      · exact ⟨o, List.mem_append_right _ hmem, hopens⟩
  later := h.later.remove hn hout

/-- One element more. -/
theorem append (hd : isToken d.waiting = true → named d.waiting ∨
      d.event.isOpen = false ∧ ∃ o ∈ l, o.Opens d.waiting)
    (h : Backed named l) : Backed named (l ++ [d]) where
  covered x hx ht hnot := by
    rcases List.mem_append.mp hx with hx | hx
    · obtain ⟨o, ho, hopens⟩ := h.covered x hx ht hnot
      exact ⟨o, List.mem_append_left _ ho, hopens⟩
    · obtain rfl := List.mem_singleton.mp hx
      rcases hd ht with hnamed | ⟨-, o, ho, hopens⟩
      · exact absurd hnamed hnot
      · exact ⟨o, List.mem_append_left _ ho, hopens⟩
  later := h.later.append fun ho ht => (hd ht).resolve_right fun hno => by simp [ho] at hno

/-- Moving elements over to a token, with what is to name it taken for granted. -/
theorem moved {token : UInt64} {f : Deferred → Deferred}
    (hf : ∀ x, (f x).event = x.event ∧ (f x).token = x.token
      ∧ ((f x).waiting = x.waiting ∨ (f x).waiting = token))
    (h : Backed named l) : Backed (fun k => named k ∨ k = token) (l.map f) := by
  have hopens : ∀ {o : Deferred} {k : UInt64}, o.Opens k → (f o).Opens k := by
    rintro o k ⟨ho, hk⟩
    exact ⟨by rw [(hf o).1]; exact ho, by rw [(hf o).2.1]; exact hk⟩
  have hwaiting : ∀ {x : Deferred}, ¬ (named (f x).waiting ∨ (f x).waiting = token) →
      (f x).waiting = x.waiting :=
    fun hnot => ((hf _).2.2).resolve_right fun he => hnot (Or.inr he)
  refine ⟨?_, ?_⟩
  · intro y hy ht hnot
    obtain ⟨x, hx, rfl⟩ := List.mem_map.mp hy
    have hw := hwaiting hnot
    rw [hw] at ht hnot ⊢
    obtain ⟨o, ho, ho'⟩ := h.covered x hx ht fun hnd => hnot (Or.inl hnd)
    exact ⟨f o, List.mem_map_of_mem ho, hopens ho'⟩
  · have hlater := h.later
    clear h
    induction l with
    | nil => trivial
    | cons x rest ih =>
      obtain ⟨hx, hrest⟩ := hlater
      refine ⟨fun ho ht hnot => ?_, ih hrest⟩
      have hw := hwaiting hnot
      rw [(hf x).1] at ho
      rw [hw] at ht hnot ⊢
      obtain ⟨o, ho', hopens'⟩ := hx ho ht fun hnd => hnot (Or.inl hnd)
      exact ⟨f o, List.mem_map_of_mem ho', hopens hopens'⟩

/-- The token's open joins the queue: nothing need be taken for granted any more. -/
theorem discharge {token : UInt64} (hd : d.Opens token) (hw : isToken d.waiting = false)
    (h : Backed (fun k => named k ∨ k = token) l) : Backed named (l ++ [d]) where
  covered x hx ht hnot := by
    by_cases hxt : x.waiting = token
    · exact ⟨d, by simp, hxt ▸ hd⟩
    · rcases List.mem_append.mp hx with hx | hx
      · obtain ⟨o, ho, hopens⟩ := h.covered x hx ht fun hor => hor.elim hnot hxt
        exact ⟨o, List.mem_append_left _ ho, hopens⟩
      · rw [List.mem_singleton.mp hx, hw] at ht
        exact absurd ht (by simp)
  later := by
    have hlater := h.later
    clear h
    induction l with
    | nil =>
      refine ⟨fun _ ht => ?_, trivial⟩
      rw [hw] at ht
      exact absurd ht (by simp)
    | cons x rest ih =>
      obtain ⟨hx, hrest⟩ := hlater
      refine ⟨fun ho ht hnot => ?_, ih hrest⟩
      by_cases hxt : x.waiting = token
      · exact ⟨d, by simp, hxt ▸ hd⟩
      · obtain ⟨o, ho', hopens⟩ := hx ho ht fun hor => hor.elim hnot hxt
        exact ⟨o, List.mem_append_left _ ho', hopens⟩

end Backed

/-! ## the table's operations -/

/-- What `FlushWaiting` counts on a new key object is no open whose token something waits on. -/
def FlushKeeps (t : RegistryIoTable) (object : UInt64) (stamp : ℤ) : Prop :=
  ∀ o ∈ t.deferred, RegistryIoTable.flushes object stamp o = true → o.event.isOpen = true →
    isToken o.token = true → ∀ d ∈ t.deferred, d.waiting ≠ o.token

/-- An operation that is to wait for its key object's pending open finds it waiting, or its token
named: it was not flushed meanwhile. -/
def OperationKeeps (t : RegistryIoTable) (object : UInt64) : Prop :=
  object ∉ t.names → ∀ token ∈ t.pendingOpens.lookup object, isToken token = true →
    token ∈ t.names ∨ ∃ o ∈ t.deferred, o.Opens token

/-- A table whose queue is, or would be, `l`. -/
abbrev TokensBacked (t : RegistryIoTable) (l : List Deferred) : Prop := Backed (· ∈ t.names) l

namespace TokensBacked

variable {env : Env} {t : RegistryIoTable} {e : RegistryEvent} {name : WString} {pid : UInt32}
  {time : ℤ} {tick : UInt64}

theorem start : TokensBacked {} [] where
  covered _ hd := absurd hd List.not_mem_nil
  later := trivial

/-- An open counted names its token. -/
theorem mem_nameToken {token : UInt64} (ht : isToken token = true) (hd : d.token = token) :
    token ∈ (t.nameToken d name tick).names := by
  have h0 : d.token ≠ 0 := by
    rintro h0
    rw [← hd, h0] at ht
    exact absurd ht (by decide)
  rw [RegistryIoTable.nameToken_names, if_neg h0, ← hd]
  exact Finmap.mem_insert.mpr (Or.inl rfl)

theorem count (h : TokensBacked t l) (b : Bool) :
    TokensBacked (t.count env e name pid time tick b) l :=
  h.mono fun _ _ _ hk => RegistryIoTable.mem_count_names hk b

theorem nameToken (h : TokensBacked t l) (d : Deferred) :
    TokensBacked (t.nameToken d name tick) l :=
  h.mono fun _ _ _ hk => RegistryIoTable.mem_nameToken_names hk d

/-- Names are only added to. -/
theorem insert_names (h : TokensBacked t l) (object : UInt64) (n : Name) :
    TokensBacked { t with names := t.names.insert object n } l :=
  h.mono fun _ _ _ hk => Finmap.mem_insert.mpr (Or.inr hk)

theorem defer (h : TokensBacked t t.deferred) {waiting : UInt64} (token : UInt64)
    (hw : isToken waiting = true →
      waiting ∈ t.names ∨ e.isOpen = false ∧ ∃ o ∈ t.deferred, o.Opens waiting) :
    TokensBacked (t.defer env e pid time tick waiting token)
      (t.defer env e pid time tick waiting token).deferred := by
  unfold RegistryIoTable.defer
  split
  · split
    · rw [RegistryIoTable.nameToken_deferred]
      exact (h.count true).nameToken _
    · split <;> exact h.count true
  · exact h.append hw

/-- The flush of an address. -/
theorem flushSweep {object : UInt64} {stamp : ℤ} (h : TokensBacked t t.deferred)
    (hf : FlushKeeps t object stamp) :
    TokensBacked (t.flushSweep env object stamp).1 (t.flushSweep env object stamp).2 := by
  have hsweep : TokensBacked (t.flushSweep env object stamp).1 (t.flushSweep env object stamp).2
      ∧ (t.flushSweep env object stamp).2 ⊆ t.deferred := by
    refine RegistryIoTable.flushSweep_invariant
      (P := fun s l => TokensBacked s l ∧ l ⊆ t.deferred) ⟨h, List.Subset.refl _⟩ ?_
    rintro s kept d rest ⟨hb, hsub⟩ hd hstamp
    have hflushes : RegistryIoTable.flushes object stamp d = true := by
      simp [RegistryIoTable.flushes, hd, hstamp]
    refine ⟨hb.remove (fun _ _ hk => RegistryIoTable.mem_flushOne_names hk d) ?_,
      fun x hx => hsub (mem_skip hx)⟩
    rintro token ht ⟨ho, rfl⟩
    have hfree := hf d (hsub (by simp)) hflushes ho ht
    exact Or.inr fun x hx => hfree x (hsub (mem_skip hx))
  exact hsweep.1

theorem newKeyObject {object : UInt64} {stamp : ℤ} (h : TokensBacked t t.deferred)
    (hf : object ≠ 0 → FlushKeeps t object stamp) :
    TokensBacked (t.newKeyObject env object stamp) (t.newKeyObject env object stamp).deferred := by
  unfold RegistryIoTable.newKeyObject
  split
  · exact h
  · next h0 =>
    unfold RegistryIoTable.flushWaiting
    split
    · exact h
    · exact h.flushSweep (hf h0)

/-- An open that waits, on a base that is no token: it stands for the next token. -/
theorem deferOpen (h : TokensBacked t t.deferred) (ho : e.isOpen = true)
    (hk : isToken e.keyObject = false) (hb : isToken e.baseObject = false) :
    TokensBacked (t.deferOpen env e pid time tick)
      (t.deferOpen env e pid time tick).deferred := by
  have hbase : isToken e.baseObject = true → e.baseObject ∈ t.names
      ∨ e.isOpen = false ∧ ∃ o ∈ t.deferred, o.Opens e.baseObject := by
    intro ht
    rw [hb] at ht
    exact absurd ht (by simp)
  unfold RegistryIoTable.deferOpen
  split
  · -- what is retargeted waits on the token, which the open or its name is to answer for
    let s := (t.pend e.keyObject).retarget e.keyObject e.stamp t.nextToken
    have hmoved : Backed (fun k => k ∈ t.names ∨ k = t.nextToken) s.deferred := by
      show Backed _ ((t.pend e.keyObject).retarget e.keyObject e.stamp t.nextToken).deferred
      unfold RegistryIoTable.retarget
      split
      · exact h.mono fun _ _ _ hn => Or.inl hn
      · refine Backed.moved (fun x => ?_) h
        split
        · exact ⟨rfl, rfl, Or.inr rfl⟩
        · exact ⟨rfl, rfl, Or.inl rfl⟩
    have hnames : ∀ k, isToken k = true → k ∈ t.names → k ∈ s.names := by
      intro k ht hkn
      rw [RegistryIoTable.retarget_names]
      refine Finmap.mem_erase.mpr ⟨?_, hkn⟩
      rintro rfl
      rw [hk] at ht
      exact absurd ht (by simp)
    show TokensBacked (s.defer env e pid time tick e.baseObject t.nextToken)
      (s.defer env e pid time tick e.baseObject t.nextToken).deferred
    unfold RegistryIoTable.defer
    split
    · -- too many wait: the open is counted at once, and its token named
      dsimp only
      rw [RegistryIoTable.nameToken_deferred]
      refine hmoved.mono fun x _ ht hkn => ?_
      rcases hkn with hkn | hkn
      · exact RegistryIoTable.mem_nameToken_names
          (RegistryIoTable.mem_count_names (hnames _ ht hkn) true) _
      · rw [hkn] at ht ⊢
        exact mem_nameToken ht rfl
    · let d : Deferred := ⟨e, pid, time, tick, e.baseObject, t.nextToken⟩
      have hd : d.Opens t.nextToken := ⟨ho, rfl⟩
      exact (hmoved.discharge hd hb).mono fun x _ => hnames x.waiting
  · exact h.defer 0 hbase

theorem onOpen (h : TokensBacked t t.deferred) (ho : e.isOpen = true)
    (hk : isToken e.keyObject = false) (hb : isToken e.baseObject = false)
    (hf : e.keyObject ≠ 0 → FlushKeeps t e.keyObject e.stamp) :
    TokensBacked (t.onOpen env e pid time tick) (t.onOpen env e pid time tick).deferred := by
  have hn : TokensBacked (t.newKeyObject env e.keyObject e.stamp) _ := h.newKeyObject hf
  unfold RegistryIoTable.onOpen
  dsimp only
  split
  · exact hn.count true
  · split
    · exact hn.count true
    · exact hn.deferOpen ho hk hb

theorem onOperation (h : TokensBacked t t.deferred) (ho : e.isOpen = false)
    (hk : isToken e.keyObject = false) (hf : OperationKeeps t e.keyObject) :
    TokensBacked (t.onOperation env e pid time tick)
      (t.onOperation env e pid time tick).deferred := by
  unfold RegistryIoTable.onOperation
  split
  · next n _ =>
    have hu : TokensBacked (t.useName e.keyObject n tick tick) t.deferred := h.insert_names _ _
    exact hu.count true
  · next hn =>
    split
    · next token hp =>
      refine h.defer 0 fun ht => ?_
      rcases hf (Finmap.lookup_eq_none.mp hn) token hp ht with hnamed | hopens
      · exact Or.inl hnamed
      · exact Or.inr ⟨ho, hopens⟩
    · split
      · exact h.count true
      · refine h.defer 0 fun ht => ?_
        rw [hk] at ht
        exact absurd ht (by simp)

theorem applyOne (h : TokensBacked t (kept ++ d :: rest)) :
    TokensBacked (t.applyOne env d) (kept ++ rest) := by
  refine h.remove (fun _ _ hk => RegistryIoTable.mem_applyOne_names hk d) ?_
  rintro token ht ⟨ho, hd⟩
  obtain ⟨s, b, -, -, -, -, heq⟩ := RegistryIoTable.applyOne_open t env ho
  rw [heq]
  exact Or.inl (mem_nameToken ht hd)

theorem applyDeferred (h : TokensBacked t t.deferred) :
    TokensBacked (t.applyDeferred env) (t.applyDeferred env).deferred :=
  RegistryIoTable.applySweep_invariant (P := TokensBacked) h fun _ _ _ _ hs _ => hs.applyOne

/-- Pruning, when the names of the tokens waited on are in use. -/
theorem prune (h : TokensBacked t t.deferred)
    (hidle : ∀ d ∈ t.deferred, isToken d.waiting = true →
      ∀ n ∈ t.names.lookup d.waiting, tick - n.tick ≤ nameIdle) :
    TokensBacked (t.prune tick) (t.prune tick).deferred := by
  refine h.mono fun d hd ht hk => ?_
  obtain ⟨n, hn⟩ := Finmap.mem_iff.mp hk
  have hkeep : (t.prune tick).names.lookup d.waiting = some n := by
    show (t.names.eraseIf fun _ n => decide (tick - n.tick > nameIdle)).lookup d.waiting = some n
    rw [Finmap.lookup_eraseIf, hn]
    simpa using hidle d hd ht n hn
  exact Finmap.mem_of_lookup_eq_some hkeep

end TokensBacked

/-! ## runs -/

/-- No event carries a value of the token range. -/
def Call.NoTokens : Call → Prop
  | .onEvent e _ _ _ => isToken e.keyObject = false ∧ isToken e.baseObject = false
  | _ => True

/-- An open flushes no open whose token something waits on, no operation is to wait for an open that
was flushed, and `Prune` erases no name of a token that something waits on. -/
def Discharges (t : RegistryIoTable) : Call → Prop
  | .onEvent e _ _ _ =>
    (e.isOpen = true → isRetried e.status = false → e.keyObject ≠ 0 →
      FlushKeeps t e.keyObject e.stamp)
    ∧ (e.isOpen = false → e.operation.isIgnored = false → OperationKeeps t e.keyObject)
  | .prune tick => ∀ d ∈ t.deferred, isToken d.waiting = true →
    ∀ n ∈ t.names.lookup d.waiting, tick - n.tick ≤ nameIdle
  | _ => True

instance : DecidablePred Call.NoTokens
  | .onEvent .. => inferInstanceAs (Decidable (_ ∧ _))
  | .takeUnnamed | .setName .. | .nameFailed .. | .applyDeferred | .prune _ | .removeProcess _
  | .clear => .isTrue trivial

instance (t : RegistryIoTable) (object : UInt64) (stamp : ℤ) :
    Decidable (FlushKeeps t object stamp) :=
  inferInstanceAs (Decidable (∀ o ∈ t.deferred, _))

instance (o : Deferred) (token : UInt64) : Decidable (o.Opens token) :=
  inferInstanceAs (Decidable (_ ∧ _))

instance (t : RegistryIoTable) (object : UInt64) : Decidable (OperationKeeps t object) :=
  inferInstanceAs (Decidable (_ → ∀ token ∈ t.pendingOpens.lookup object, _))

instance (t : RegistryIoTable) : DecidablePred (Discharges t)
  | .onEvent .. => inferInstanceAs (Decidable (_ ∧ _))
  | .prune _ => inferInstanceAs (Decidable (∀ d ∈ t.deferred, _))
  | .takeUnnamed | .setName .. | .nameFailed .. | .applyDeferred | .removeProcess _ | .clear =>
    .isTrue trivial

theorem TokensBacked.step {env : Env} {t : RegistryIoTable} {c : Call}
    (h : TokensBacked t t.deferred) (hc : c.NoTokens) (hd : Discharges t c) :
    TokensBacked (t.step env c) (t.step env c).deferred := by
  cases c with
  | onEvent e pid time tick =>
    obtain ⟨hk, hb⟩ := hc
    simp only [RegistryIoTable.step, RegistryIoTable.onEvent]
    split
    · exact h
    · next hi =>
      split
      · next ho =>
        split
        · exact h
        · next hr =>
          exact h.onOpen ho hk hb (hd.1 ho (by simpa using hr))
      · next ho =>
        have ho' : e.isOpen = false := by simpa using ho
        exact h.onOperation ho' hk (hd.2 ho' (by simpa using hi))
  | takeUnnamed => exact h
  | setName object name tick => exact h.insert_names _ _
  | nameFailed => exact h
  | applyDeferred => exact h.applyDeferred
  | prune tick => exact h.prune hd
  | removeProcess => exact h
  | clear => exact TokensBacked.start

end WinSys.Registry
