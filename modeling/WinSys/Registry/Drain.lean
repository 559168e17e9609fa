import WinSys.Registry.Bookkeeping
import WinSys.Registry.Tokens

/-!
# Nothing waits forever

Where every token waited on is named or has its open waiting (`TokensBacked`), passes of the
resolver empty `m_Deferred`: after four of them no key object is waited on any more (the first one
may find key objects taken by a pass before it, and `MaxAttempts` failures make it give up), and
from then on each pass counts the last open that waits, and a last one the operations left.

* `Asked`: how often the key objects waited on were asked for
* `run_passes_empty`: the passes
* `nothing_stranded`: every run
-/

namespace WinSys.Registry

open Infra

/-! ## passes -/

/-- What a pass found out about a key object. -/
inductive Answer
  | named (object : UInt64) (name : WString) (tick : UInt64)
  | failed (object : UInt64) (why : RegistryUnnamed)

def Answer.object : Answer → UInt64
  | .named object _ _ | .failed object _ => object

def Answer.call : Answer → Call
  | .named object name tick => .setName object name tick
  | .failed object why => .nameFailed object why

namespace RegistryIoTable

/-- The table with the answers of a pass, before they are applied. -/
def answered (env : Env) (t : RegistryIoTable) (answers : List Answer) : RegistryIoTable :=
  run (RegistryIoTable.step env) t.takeUnnamed.2 (answers.map Answer.call)

/-- A resolver pass without other calls between its two parts. -/
def pass (env : Env) (t : RegistryIoTable) (answers : List Answer) : RegistryIoTable :=
  (t.answered env answers).applyDeferred env

end RegistryIoTable

/-- A pass has an answer for every key object it took. -/
def AnswersAll (t : RegistryIoTable) (answers : List Answer) : Prop :=
  ∀ object ∈ t.unnamed, ∃ a ∈ answers, a.object = object

/-! ## the law -/

/-- A token waited on has a name or an open that still waits. -/
def NeverStranded (t : RegistryIoTable) : Prop :=
  ∀ d ∈ t.deferred, isToken d.waiting = true →
    d.waiting ∈ t.names ∨ ∃ o ∈ t.deferred, o.event.isOpen = true ∧ o.token = d.waiting

/-- As many passes as operations wait, and `MaxAttempts` more, leave nothing waiting. -/
def Drains (env : Env) (t : RegistryIoTable) : Prop :=
  ∀ passes : List (List Answer), passes.length = t.deferred.length + maxAttempts →
    Along (RegistryIoTable.pass env) AnswersAll t passes →
      (run (RegistryIoTable.pass env) t passes).deferred = []

/-! ## one pass -/

section Pass

variable {env : Env} {t : RegistryIoTable} {answers : List Answer} {d : Deferred}

/-- The resolver's failed attempts on a key object so far. -/
def RegistryIoTable.failedAttempts (t : RegistryIoTable) (object : UInt64) : ℕ :=
  ((t.attempts.lookup object).getD {}).count

/-- Answers add names and attempts, and nothing else matters here. -/
structure Informed (t t' : RegistryIoTable) : Prop where
  deferred : t'.deferred = t.deferred
  named : ∀ k ∈ t.names, k ∈ t'.names
  attempts : ∀ k, t.failedAttempts k ≤ t'.failedAttempts k

theorem Informed.trans {t₁ t₂ t₃ : RegistryIoTable} (h : Informed t₁ t₂) (h' : Informed t₂ t₃) :
    Informed t₁ t₃ where
  deferred := h'.deferred.trans h.deferred
  named k hk := h'.named k (h.named k hk)
  attempts k := (h.attempts k).trans (h'.attempts k)

theorem informed_answer (t : RegistryIoTable) (a : Answer) : Informed t (t.step env a.call) := by
  cases a with
  | named object name tick =>
    exact ⟨rfl, fun k hk => Finmap.mem_insert.mpr (Or.inr hk), fun k => le_rfl⟩
  | failed object why =>
    refine ⟨rfl, fun k hk => hk, fun k => ?_⟩
    show t.failedAttempts k ≤ (((t.nameFailed object why).attempts.lookup k).getD {}).count
    by_cases hk : k = object
    · subst hk
      exact Nat.le_of_succ_le (nameFailed_count t k why _ le_rfl)
    · rw [RegistryIoTable.nameFailed, Finmap.lookup_insert_of_ne _ hk]
      exact le_rfl

/-- An answer names its key object or counts an attempt. -/
theorem answered_one (t : RegistryIoTable) (a : Answer) :
    a.object ∈ (t.step env a.call).names
      ∨ t.failedAttempts a.object + 1 ≤ (t.step env a.call).failedAttempts a.object := by
  cases a with
  | named object name tick => exact Or.inl (Finmap.mem_insert.mpr (Or.inl rfl))
  | failed object why => exact Or.inr (nameFailed_count t object why _ le_rfl)

theorem informed_run (t : RegistryIoTable) (answers : List Answer) :
    Informed t (run (RegistryIoTable.step env) t (answers.map Answer.call)) := by
  induction answers generalizing t with
  | nil => exact ⟨rfl, fun _ hk => hk, fun _ => le_rfl⟩
  | cons a answers ih => exact (informed_answer t a).trans (ih _)

theorem informed_of_mem {a : Answer} (ha : a ∈ answers) (t : RegistryIoTable) :
    a.object ∈ (run (RegistryIoTable.step env) t (answers.map Answer.call)).names
      ∨ t.failedAttempts a.object + 1
        ≤ (run (RegistryIoTable.step env) t (answers.map Answer.call)).failedAttempts a.object := by
  induction answers generalizing t with
  | nil => exact absurd ha List.not_mem_nil
  | cons b answers ih =>
    have hrest := @informed_run env (t.step env b.call) answers
    rcases List.mem_cons.mp ha with rfl | ha
    · rcases @answered_one env t a with hn | hc
      · exact Or.inl (hrest.named _ hn)
      · exact Or.inr (hc.trans (hrest.attempts _))
    · rcases ih ha (t.step env b.call) with hn | hc
      · exact Or.inl hn
      · exact Or.inr ((Nat.succ_le_succ ((informed_answer t b).attempts _)).trans hc)

theorem informed_answered (env : Env) (t : RegistryIoTable) (answers : List Answer) :
    Informed t (t.answered env answers) := by
  have htaken : Informed t t.takeUnnamed.2 := ⟨rfl, fun _ hk => hk, fun _ => le_rfl⟩
  exact htaken.trans (informed_run _ answers)

/-- Counting another waiting operation makes none less ready. -/
theorem ready_applyOne (s : RegistryIoTable) (d e : Deferred) (h : s.ready d = true) :
    (s.applyOne env e).ready d = true := by
  simp only [RegistryIoTable.ready, Bool.or_eq_true] at h ⊢
  rcases h with h | h
  · have hmem : d.waiting ∈ s.names := Finmap.lookup_isSome.mp h
    exact Or.inl (Finmap.lookup_isSome.mpr (RegistryIoTable.mem_applyOne_names hmem e))
  · refine Or.inr ?_
    rw [RegistryIoTable.gaveUp, applyOne_attempts]
    exact h

/-- What one pass does to what waits. -/
structure Passed (t t' : RegistryIoTable) : Prop where
  deferred : t'.deferred.Sublist t.deferred
  named : ∀ k ∈ t.names, k ∈ t'.names
  unnamed : ∀ d ∈ t'.deferred, d.waiting ∉ t.names
  failing : ∀ d ∈ t'.deferred, t'.failedAttempts d.waiting < maxAttempts
  asked : ∀ d ∈ t'.deferred, d.waiting ∈ t.unnamed →
    t.failedAttempts d.waiting + 1 ≤ t'.failedAttempts d.waiting
  attempts : ∀ k, t.failedAttempts k ≤ t'.failedAttempts k

theorem passed_pass (env : Env) (t : RegistryIoTable) {answers : List Answer}
    (ha : AnswersAll t answers) : Passed t (t.pass env answers) := by
  have hinf := informed_answered env t answers
  have hattempts : (t.pass env answers).attempts = (t.answered env answers).attempts :=
    sweep_state (P := fun s : RegistryIoTable => s.attempts = (t.answered env answers).attempts)
      (fun s d hs _ => (applyOne_attempts s d).trans hs) rfl
  have hfailed : ∀ k, (t.pass env answers).failedAttempts k
      = (t.answered env answers).failedAttempts k := by
    intro k
    rw [RegistryIoTable.failedAttempts, hattempts]
    rfl
  have hnames : ∀ k ∈ (t.answered env answers).names, k ∈ (t.pass env answers).names :=
    fun k hk => sweep_state (P := fun s : RegistryIoTable => k ∈ s.names)
      (fun s d hs _ => RegistryIoTable.mem_applyOne_names hs d) hk
  -- what waits on was not ready once the answers were in
  have hready : ∀ d ∈ (t.pass env answers).deferred, d.waiting ∉ (t.answered env answers).names
      ∧ (t.answered env answers).gaveUp d.waiting = false := by
    intro d hd
    have hkept : (t.answered env answers).ready d = false :=
      sweep_kept (fun s d e => ready_applyOne s d e) hd
    simp only [RegistryIoTable.ready, Bool.or_eq_false_iff, Option.isSome_eq_false_iff,
      Option.isNone_iff_eq_none] at hkept
    exact ⟨Finmap.lookup_eq_none.mp hkept.1, hkept.2⟩
  refine ⟨?_, ?_, ?_, ?_, ?_, ?_⟩
  · rw [← hinf.deferred]
    exact RegistryIoTable.applySweep_sublist
  · exact fun k hk => hnames k (hinf.named k hk)
  · exact fun d hd hk => (hready d hd).1 (hinf.named _ hk)
  · intro d hd
    rw [hfailed]
    by_contra hnot
    have hgave := gaveUp_of_count (not_lt.mp hnot)
    rw [(hready d hd).2] at hgave
    exact absurd hgave (by simp)
  · intro d hd hu
    rw [hfailed]
    obtain ⟨a, hmem, hobject⟩ := ha d.waiting hu
    rw [← hobject]
    rcases @informed_of_mem env answers a hmem t.takeUnnamed.2 with hn | hc
    · rw [hobject] at hn
      exact absurd hn (hready d hd).1
    · exact hc
  · intro k
    rw [hfailed]
    exact hinf.attempts k

/-- What the passes need of the table they start from. -/
structure Sound (t : RegistryIoTable) : Prop where
  tallied : Tallied t
  backed : TokensBacked t t.deferred

theorem Sound.pass (h : Sound t) (env : Env) (answers : List Answer) :
    Sound (t.pass env answers) := by
  have hanswered : Sound (t.answered env answers) := by
    have hstart : Sound t.takeUnnamed.2 := ⟨h.tallied.of_eq rfl rfl, h.backed⟩
    refine run_invariant_mem _ Sound (fun s c hs (hc : ∃ a : Answer, a.call = c) => ?_) hstart ?_
    · obtain ⟨a, rfl⟩ := hc
      refine ⟨hs.tallied.step _, ?_⟩
      cases a with
      | named object name tick => exact hs.backed.insert_names _ _
      | failed object why => exact hs.backed
    · intro c hc
      obtain ⟨a, -, rfl⟩ := List.mem_map.mp hc
      exact ⟨a, rfl⟩
  exact ⟨hanswered.tallied.applyDeferred, hanswered.backed.applyDeferred⟩

/-- After a pass the resolver is given whatever key object is still waited on. -/
theorem offered_pass (h : Sound t) (env : Env) (answers : List Answer) :
    ∀ d ∈ (t.pass env answers).deferred, isToken d.waiting = false →
      d.waiting ∈ (t.pass env answers).unnamed := by
  intro d hd ht
  exact Bookkept.offered_applyDeferred _ _ ((h.pass env answers).tallied.mem_waiting hd) ht

end Pass

/-! ## passes in a row -/

section Passes

variable {env : Env} {t : RegistryIoTable} {passes : List (List Answer)}

/-- The key objects waited on are the resolver's, who has asked for each `n` times. -/
def Asked (n : ℕ) (t : RegistryIoTable) : Prop :=
  ∀ d ∈ t.deferred, isToken d.waiting = false →
    d.waiting ∈ t.unnamed ∧ n ≤ t.failedAttempts d.waiting

theorem asked_pass (h : Sound t) (answers : List Answer) : Asked 0 (t.pass env answers) :=
  fun d hd ht => ⟨offered_pass h env answers d hd ht, Nat.zero_le _⟩

theorem Asked.pass {n : ℕ} (hn : Asked n t) (h : Sound t) {answers : List Answer}
    (ha : AnswersAll t answers) : Asked (n + 1) (t.pass env answers) := by
  intro d hd ht
  have hp := passed_pass env t ha
  obtain ⟨hu, hcount⟩ := hn d (hp.deferred.subset hd) ht
  exact ⟨offered_pass h env answers d hd ht,
    (Nat.succ_le_succ hcount).trans (hp.asked d hd hu)⟩

/-- Only tokens are waited on. -/
def OnlyTokens (t : RegistryIoTable) : Prop := ∀ d ∈ t.deferred, isToken d.waiting = true

/-- A key object asked for as often as the resolver tries is given up on. -/
theorem Asked.onlyTokens (hn : Asked maxAttempts t)
    (hfailing : ∀ d ∈ t.deferred, t.failedAttempts d.waiting < maxAttempts) : OnlyTokens t := by
  intro d hd
  cases ht : isToken d.waiting with
  | true => rfl
  | false =>
    obtain ⟨-, hcount⟩ := hn d hd ht
    have hlt := hfailing d hd
    omega

/-- The passes keep what is sound, and only take from what waits. -/
structure PassedAll (t t' : RegistryIoTable) : Prop where
  sound : Sound t'
  deferred : t'.deferred.Sublist t.deferred

theorem run_passes (h : Sound t) (hp : Along (RegistryIoTable.pass env) AnswersAll t passes) :
    PassedAll t (run (RegistryIoTable.pass env) t passes) := by
  induction passes generalizing t with
  | nil => exact ⟨h, List.Sublist.refl _⟩
  | cons answers passes ih =>
    obtain ⟨hsound, hsub⟩ := ih (h.pass env answers) hp.2
    exact ⟨hsound, hsub.trans (passed_pass env t hp.1).deferred⟩

/-- After four passes only tokens are waited on. -/
theorem onlyTokens_of_four (h : Sound t) {a b c d : List Answer}
    (hp : Along (RegistryIoTable.pass env) AnswersAll t [a, b, c, d]) :
    OnlyTokens (run (RegistryIoTable.pass env) t [a, b, c, d]) := by
  obtain ⟨-, hb, hc, hd, -⟩ := hp
  have h₁ := h.pass env a
  have h₂ := h₁.pass env b
  have h₃ := h₂.pass env c
  exact ((((asked_pass h a).pass h₁ hb).pass h₂ hc).pass h₃ hd).onlyTokens
    (passed_pass env _ hd).failing

theorem OnlyTokens.sublist {t' : RegistryIoTable} (h : OnlyTokens t)
    (hsub : t'.deferred.Sublist t.deferred) : OnlyTokens t' :=
  fun d hd => h d (hsub.subset hd)

/-! ### the last open -/

/-- The opens that wait. -/
def RegistryIoTable.opens (t : RegistryIoTable) : ℕ := t.deferred.countP fun d => d.event.isOpen

theorem opens_le {t' : RegistryIoTable} (hsub : t'.deferred.Sublist t.deferred) :
    t'.opens ≤ t.opens :=
  hsub.countP_le

/-- A queue with an open has a last one. -/
theorem exists_lastOpen {l : List Deferred} (h : 0 < l.countP fun d => d.event.isOpen) :
    ∃ kept o rest, l = kept ++ o :: rest ∧ o.event.isOpen = true
      ∧ ∀ d ∈ rest, d.event.isOpen = false := by
  induction l with
  | nil => simp at h
  | cons x l ih =>
    by_cases hl : 0 < l.countP fun d => d.event.isOpen
    · obtain ⟨kept, o, rest, rfl, ho, hrest⟩ := ih hl
      exact ⟨x :: kept, o, rest, rfl, ho, hrest⟩
    · have hnone : ∀ d ∈ l, d.event.isOpen = false := by
        intro d hd
        by_contra hopen
        exact hl (List.countP_pos_iff.mpr ⟨d, hd, by simpa using hopen⟩)
      refine ⟨[], x, l, rfl, ?_, hnone⟩
      by_contra hx
      have hcons : ((x :: l).countP fun d => d.event.isOpen) = l.countP fun d => d.event.isOpen :=
        List.countP_cons_of_neg hx
      exact hl (hcons ▸ h)

/-- A queue that lost elements but no open still has each of them. -/
theorem mem_of_countP_eq {l l' : List Deferred} (hsub : l'.Sublist l)
    (hcount : (l'.countP fun d => d.event.isOpen) = l.countP fun d => d.event.isOpen)
    {o : Deferred} (ho : o.event.isOpen = true) (hmem : o ∈ l) : o ∈ l' := by
  have hfilter : l'.filter (fun d => d.event.isOpen) = l.filter fun d => d.event.isOpen := by
    refine (hsub.filter _).eq_of_length ?_
    rw [← List.countP_eq_length_filter, ← List.countP_eq_length_filter, hcount]
  have hin : o ∈ l.filter fun d => d.event.isOpen := List.mem_filter.mpr ⟨hmem, ho⟩
  rw [← hfilter] at hin
  exact (List.mem_filter.mp hin).1

/-- If the last open waits on a token, the next pass counts an open. -/
theorem opens_pass_lt (h : Sound t) {answers : List Answer} (ha : AnswersAll t answers)
    {t' : RegistryIoTable} (hsub : t'.deferred.Sublist (t.pass env answers).deferred)
    (hpos : 0 < t.opens) (htokens : OnlyTokens t') : t'.opens < t.opens := by
  have hp := passed_pass env t ha
  refine lt_of_le_of_ne (opens_le (hsub.trans hp.deferred)) fun heq => ?_
  obtain ⟨kept, o, rest, hl, ho, hlast⟩ := exists_lastOpen hpos
  -- otherwise it would still be there
  have hmem : o ∈ t'.deferred :=
    mem_of_countP_eq (hsub.trans hp.deferred) heq ho (by rw [hl]; simp)
  have hlater := h.backed.later
  rw [hl] at hlater
  have hnamed := hlater.named_of_last ho hlast (htokens o hmem)
  exact hp.unnamed o (hsub.subset hmem) hnamed

/-- When no open waits, the operations that wait on tokens find them named. -/
theorem pass_empty (h : Sound t) {answers : List Answer} (ha : AnswersAll t answers)
    {t' : RegistryIoTable} (hsub : t'.deferred.Sublist (t.pass env answers).deferred)
    (hnone : t.opens = 0) (htokens : OnlyTokens t') : t'.deferred = [] := by
  have hp := passed_pass env t ha
  refine List.eq_nil_iff_forall_not_mem.mpr fun d hd => ?_
  have hd' := hsub.subset hd
  obtain ⟨o, ho, hopen, -⟩ :=
    h.backed.covered d (hp.deferred.subset hd') (htokens d hd) (hp.unnamed d hd')
  have hpos : 0 < t.opens := List.countP_pos_iff.mpr ⟨o, ho, hopen⟩
  omega

/-- Once only tokens are waited on, each pass counts the last open, and one more the rest. -/
theorem run_passes_tokens (h : Sound t) (htokens : OnlyTokens t)
    (hp : Along (RegistryIoTable.pass env) AnswersAll t passes) :
    (run (RegistryIoTable.pass env) t passes).opens ≤ t.opens - passes.length
      ∧ (t.opens < passes.length → (run (RegistryIoTable.pass env) t passes).deferred = []) := by
  induction passes generalizing t with
  | nil => exact ⟨le_rfl, fun hlt => absurd hlt (Nat.not_lt_zero _)⟩
  | cons answers passes ih =>
    have hpass := passed_pass env t hp.1
    have htokens' := htokens.sublist hpass.deferred
    obtain ⟨hopens, hempty⟩ := ih (h.pass env answers) htokens' hp.2
    rw [run_cons, List.length_cons]
    rcases Nat.eq_zero_or_pos t.opens with h0 | hpos
    · have hnil := pass_empty h hp.1 (List.Sublist.refl _) h0 htokens'
      have hsub := (run_passes (h.pass env answers) hp.2).deferred
      rw [hnil, List.sublist_nil] at hsub
      refine ⟨?_, fun _ => hsub⟩
      rw [RegistryIoTable.opens, hsub]
      exact Nat.zero_le _
    · have hlt := opens_pass_lt h hp.1 (List.Sublist.refl _) hpos htokens'
      refine ⟨by omega, fun hlen => hempty ?_⟩
      omega

/-- **Passes of the resolver empty what waits.** -/
theorem run_passes_empty (h : Sound t) : Drains env t := by
  intro passes hlen hp
  have hsub := (run_passes h hp).deferred
  rcases Nat.eq_zero_or_pos t.deferred.length with hzero | hsome
  · rw [List.length_eq_zero_iff.mp hzero, List.sublist_nil] at hsub
    exact hsub
  -- four passes ask for the key objects, the rest is left to the tokens
  obtain ⟨a, b, c, d, rest, rfl⟩ : ∃ a b c d rest, passes = a :: b :: c :: d :: rest := by
    match passes, hlen with
    | a :: b :: c :: d :: rest, _ => exact ⟨a, b, c, d, rest, rfl⟩
    | [a, b, c], hlen | [a, b], hlen | [a], hlen | [], hlen =>
      simp only [List.length_cons, List.length_nil, maxAttempts] at hlen
      omega
  have hsplit : a :: b :: c :: d :: rest = [a, b, c, d] ++ rest := rfl
  rw [hsplit, along_append] at hp
  rw [hsplit, run_append] at hsub ⊢
  obtain ⟨hfour, hrest⟩ := hp
  have htokens := onlyTokens_of_four h hfour
  have hafter := run_passes h hfour
  have hfirst : (run (RegistryIoTable.pass env) t [a, b, c, d]).deferred.Sublist
      (t.pass env a).deferred := (run_passes (h.pass env a) hfour.2).deferred
  obtain ⟨hopens, hempty⟩ := run_passes_tokens hafter.sound htokens hrest
  have hall : t.opens ≤ t.deferred.length := List.countP_le_length
  simp only [List.length_cons, maxAttempts] at hlen
  rcases Nat.eq_zero_or_pos t.opens with h0 | hpos
  · have hnil := pass_empty h hfour.1 hfirst h0 htokens
    have hsub' := (run_passes hafter.sound hrest).deferred
    rw [hnil, List.sublist_nil] at hsub'
    exact hsub'
  · have hlt := opens_pass_lt h hfour.1 hfirst hpos htokens
    rcases Nat.lt_or_ge t.opens t.deferred.length with hops | hops
    · exact hempty (by omega)
    · -- only opens waited
      have hopen : ∀ x ∈ t.deferred, x.event.isOpen = true :=
        List.countP_eq_length.mp (le_antisymm hall hops)
      refine List.eq_nil_iff_forall_not_mem.mpr fun x hx => ?_
      have hpos' : 0 < (run (RegistryIoTable.pass env)
          (run (RegistryIoTable.pass env) t [a, b, c, d]) rest).opens :=
        List.countP_pos_iff.mpr ⟨x, hx, hopen x (hsub.subset hx)⟩
      omega

end Passes

/-! ## every run -/

/--
**Where no open is flushed whose token something waits on, then or later, and no name of a token
waited on is pruned, nothing is stranded**: every token waited on is named or has its open, and
passes of the resolver count whatever waits.
-/
theorem nothing_stranded (env : Env) (calls : List Call) (hc : ∀ c ∈ calls, c.NoTokens)
    (h : Along (RegistryIoTable.step env) Discharges {} calls) :
    NeverStranded (RegistryIoTable.after env calls)
      ∧ Drains env (RegistryIoTable.after env calls) := by
  have hsound : Sound (RegistryIoTable.after env calls) := by
    refine run_invariant _ Sound (fun t c hs hok => ?_) ⟨Tallied.start, TokensBacked.start⟩
      ((along_of_forall hc).and h)
    exact ⟨hs.tallied.step c, hs.backed.step hok.1 hok.2⟩
  refine ⟨fun d hd ht => ?_, run_passes_empty hsound⟩
  by_cases hn : d.waiting ∈ (RegistryIoTable.after env calls).names
  · exact Or.inl hn
  · exact Or.inr (hsound.backed.covered d hd ht hn)

/-- An operation before its key object's open and one after, and that open's base opened at an
earlier stamp, relative to a key that is not known. -/
def openChain : List Call :=
  [ .onEvent { operation := .setValue, keyObject := 0x10, stamp := 5 } 7 1 1,
    .onEvent { operation := .openKey, keyObject := 0x10, baseObject := 0x20, stamp := 3 } 7 2 2,
    .onEvent { operation := .queryKey, keyObject := 0x10, stamp := 6 } 7 3 3,
    .onEvent { operation := .openKey, keyObject := 0x20, baseObject := 0x30, stamp := 2 } 7 4 4,
    .prune 5 ]

theorem nothing_stranded_openChain :
    NeverStranded (RegistryIoTable.after Env.ascii openChain)
      ∧ Drains Env.ascii (RegistryIoTable.after Env.ascii openChain) :=
  nothing_stranded Env.ascii openChain (by decide) (by decide)

/-- The base is opened at a later stamp, as another key: the open is flushed and its token gets no
name, so the operation waits on it for good. -/
def baseReopened : List Call :=
  [ .onEvent { operation := .openKey, keyObject := 0x10, baseObject := 0x20, stamp := 1 } 7 1 1,
    .onEvent { operation := .setValue, keyObject := 0x10, stamp := 2 } 7 2 2,
    .onEvent { operation := .openKey, keyObject := 0x20, name := wide "\\A", stamp := 3 } 7 3 3 ]

theorem flushed_open_strands :
    ¬ ∀ (env : Env) (calls : List Call), (∀ c ∈ calls, c.NoTokens) →
      NeverStranded (RegistryIoTable.after env calls)
        ∧ Drains env (RegistryIoTable.after env calls) := by
  intro hall
  have h := (hall Env.ascii baseReopened (by decide)).1
  exact absurd h (by unfold NeverStranded; decide)

end WinSys.Registry
