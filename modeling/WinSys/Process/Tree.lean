import WinSys.Infra.Forest
import WinSys.Process.Processes

/-!
# The process tree

`BuildProcessTree` lists the processes as a forest: a process without a parent at depth 0, another
one below its parent.
-/

namespace WinSys.Process

open Infra

/-! ## the source -/

/-- A process is a child of an older one with its parent's ID. -/
def ProcessInfo.isChildOf (p parent : ProcessInfo) : Bool :=
  p.parentId = parent.id && parent.key.created < p.key.created

theorem created_lt_filter {ps : List ProcessInfo} {parent p : ProcessInfo} (hp : p ∈ ps)
    (h : p.isChildOf parent = true) :
    (ps.filter fun x => p.key.created < x.key.created).length
      < (ps.filter fun x => parent.key.created < x.key.created).length := by
  have hlt : parent.key.created < p.key.created := by
    simp only [ProcessInfo.isChildOf, Bool.and_eq_true, decide_eq_true_eq] at h
    exact h.2
  exact Lineage.length_filter_lt
    (fun _ hx => decide_eq_true (Int64.lt_trans hlt (of_decide_eq_true hx))) hp
    (decide_eq_false Int64.lt_irrefl) (decide_eq_true hlt)

/-- The IDs below a process, each with its depth. -/
def findChildren (ps : List ProcessInfo) (parent : ProcessInfo) (indent : ℕ) :
    List (UInt32 × ℕ) :=
  ps.attach.flatMap fun p =>
    if _ : p.val.isChildOf parent then
      (p.val.id, indent) :: findChildren ps p.val (indent + 1)
    else []
termination_by (ps.filter fun x => parent.key.created < x.key.created).length
decreasing_by exact created_lt_filter p.property (by assumption)

namespace ProcessManager

variable (s : ProcessManager)

/-- No parent is known, or a process with its ID that is younger. -/
def isTreeRoot (p : ProcessInfo) : Bool :=
  p.parentId = 0 ||
    match s.processesById.lookup p.parentId with
    | none => true
    | some parent => p.key.created < parent.key.created

/-- The tree of the processes that were listed last. -/
def tree : List (Option ProcessInfo × ℕ) :=
  s.processes.flatMap fun p =>
    if s.isTreeRoot p then
      (some p, 0) ::
        if p.id = 0 then []
        else (findChildren s.processes p 1).map fun child =>
          (s.processesById.lookup child.1, child.2)
    else []

def buildProcessTree (m : Machine) (query : Query) : List (Option ProcessInfo × ℕ) :=
  (s.update m false 0 query).tree

end ProcessManager

/-! ## a complete forest -/

/-- A process's parent: another one of its parent's ID, not created after it. -/
def ProcessInfo.IsParentOf (q p : ProcessInfo) : Prop :=
  p.parentId ≠ 0 ∧ q.id = p.parentId ∧ ¬ p.key.created < q.key.created ∧ q.id ≠ p.id

/-- Every process once: one without a parent at depth 0, another one behind its parent, one level
below it, with only deeper ones between them. -/
structure CompleteForest (ps : List ProcessInfo) (tree : List (Option ProcessInfo × ℕ)) : Prop where
  perm : (tree.map Prod.fst).Perm (ps.map some)
  placed : ∀ pre p depth post, tree = pre ++ (some p, depth) :: post →
    (depth = 0 ∧ ∀ q ∈ ps, ¬ q.IsParentOf p) ∨
    ∃ before q e between, pre = before ++ (some q, e) :: between ∧ depth = e + 1 ∧
      q.IsParentOf p ∧ ∀ x ∈ between, e < x.2

/-- No process was created at the same time as the one with its parent's ID (itself, if it is that
one), and a process with ID 0 that has a parent is not older than one with parent ID 0. -/
structure Untied (ps : List ProcessInfo) : Prop where
  ties : ∀ p ∈ ps, ∀ q ∈ ps, p.parentId ≠ 0 → q.id = p.parentId → q.key.created ≠ p.key.created
  zero : ∀ z ∈ ps, ∀ q ∈ ps, ∀ p ∈ ps, z.id = 0 → z.parentId ≠ 0 → q.id = z.parentId →
    ¬ z.key.created < q.key.created → p.parentId = 0 → ¬ z.key.created < p.key.created

/-- The processes by parent ID, as long as IDs are distinct. -/
def lineage (ps : List ProcessInfo) (h : (ps.map ProcessInfo.id).Nodup) : Lineage ProcessInfo where
  nodes := ps
  parentOf q p := p.parentId ≠ 0 && p.isChildOf q
  rank p := p.key.created.toInt
  nodup := List.Nodup.of_map _ h
  older := by
    intro q p hqp
    simp only [ProcessInfo.isChildOf, Bool.and_eq_true, decide_eq_true_eq] at hqp
    exact Int64.lt_iff_toInt_lt.mp hqp.2.2
  unique := by
    intro q q' p hq hq' hqp hqp'
    simp only [ProcessInfo.isChildOf, Bool.and_eq_true, decide_eq_true_eq] at hqp hqp'
    exact List.inj_on_of_nodup_map h hq hq' (hqp.2.1.symm.trans hqp'.2.1)

theorem isChildOf_iff {p q : ProcessInfo} :
    p.isChildOf q = true ↔ p.parentId = q.id ∧ q.key.created < p.key.created := by
  simp [ProcessInfo.isChildOf]

/-! ## what is listed -/

theorem findChildren_eq (ps : List ProcessInfo) (parent : ProcessInfo) (indent : ℕ) :
    findChildren ps parent indent = ps.flatMap fun p =>
      if p.isChildOf parent then (p.id, indent) :: findChildren ps p (indent + 1) else [] := by
  rw [findChildren]
  exact Lineage.flatMap_attach ps fun p =>
    if p.isChildOf parent then (p.id, indent) :: findChildren ps p (indent + 1) else []

/-- Who is below a process has an older parent. -/
theorem exists_parent_of_mem {ps : List ProcessInfo} {parent : ProcessInfo} (hparent : parent ∈ ps)
    {id : UInt32} {indent : ℕ} (hid : id ∈ (findChildren ps parent indent).map Prod.fst) :
    ∃ p ∈ ps, p.id = id ∧ ∃ q ∈ ps, p.isChildOf q = true := by
  fun_induction findChildren ps parent indent with
  | case1 parent indent ih =>
    rw [List.map_flatMap, List.mem_flatMap] at hid
    obtain ⟨p, -, hp⟩ := hid
    split at hp
    · next hchild =>
      rw [List.map_cons, List.mem_cons] at hp
      cases hp with
      | inl hp => exact ⟨p.val, p.property, hp.symm, parent, hparent, hchild⟩
      | inr hp => exact ih p hchild p.property hp
    · cases hp

/-- What is a child of one below is below. -/
theorem mem_findChildren_of_child {ps : List ProcessInfo} {parent z p : ProcessInfo} {indent : ℕ}
    (hids : (ps.map ProcessInfo.id).Nodup) (hz : z ∈ ps) (hp : p ∈ ps)
    (hchild : p.isChildOf z = true)
    (hid : z.id ∈ (findChildren ps parent indent).map Prod.fst) :
    p.id ∈ (findChildren ps parent indent).map Prod.fst := by
  have hdirect : ∀ k, p.id ∈ (findChildren ps z k).map Prod.fst := by
    intro k
    rw [findChildren_eq, List.map_flatMap, List.mem_flatMap]
    refine ⟨p, hp, ?_⟩
    rw [if_pos hchild]
    exact List.mem_cons_self
  fun_induction findChildren ps parent indent with
  | case1 parent indent ih =>
    rw [List.map_flatMap, List.mem_flatMap] at hid ⊢
    obtain ⟨c, hc, hzc⟩ := hid
    refine ⟨c, hc, ?_⟩
    split at hzc
    · next hcp =>
      rw [dif_pos hcp, List.map_cons, List.mem_cons]
      rw [List.map_cons, List.mem_cons] at hzc
      cases hzc with
      | inl heq =>
        have hcz : z = c.val := List.inj_on_of_nodup_map hids hz c.property heq
        exact .inr (hcz ▸ hdirect _)
      | inr hbelow => exact .inr (ih c hcp hbelow)
    · cases hzc

section Forest

variable {s : ProcessManager} (h : (s.processes.map ProcessInfo.id).Nodup)
  (hindex : s.processesById.Indexes ProcessInfo.id s.processes)

/-- The tree of processes without ties is their forest. -/
theorem findChildren_eq_below (hu : Untied s.processes) {q : ProcessInfo} (hq : q ∈ s.processes)
    (hzero : q.id = 0 → q.parentId ≠ 0 ∧ ∃ r ∈ s.processes, q.isChildOf r = true) (indent : ℕ) :
    findChildren s.processes q indent
      = ((lineage s.processes h).below q indent).map fun x => (x.1.id, x.2) := by
  induction q using (lineage s.processes h).descend generalizing indent with
  | h q ih =>
    rw [findChildren_eq, Lineage.below_eq, List.map_flatMap]
    refine List.flatMap_congr fun p hp => ?_
    have hparent : (lineage s.processes h).parentOf q p = p.isChildOf q := by
      have hdef : (lineage s.processes h).parentOf q p = (p.parentId ≠ 0 && p.isChildOf q) := rfl
      rw [hdef]
      cases hchild : p.isChildOf q with
      | false => exact Bool.and_false _
      | true =>
        obtain ⟨hid, hlt⟩ := isChildOf_iff.mp hchild
        rw [Bool.and_true, decide_eq_true_eq]
        intro hp0
        obtain ⟨hq0, r, hr, hqr⟩ := hzero (hid.symm.trans hp0)
        obtain ⟨hrid, hrlt⟩ := isChildOf_iff.mp hqr
        exact hu.zero q hq r hr p hp (hid.symm.trans hp0) hq0 hrid.symm
          (Int64.not_lt.mpr (Int64.le_of_lt hrlt)) hp0 hlt
    rw [hparent]
    cases hchild : p.isChildOf q with
    | false => rfl
    | true =>
      rw [if_pos rfl, if_pos rfl, List.map_cons]
      rw [hchild] at hparent
      have hp0 : p.parentId ≠ 0 := by
        have hdef : (p.parentId ≠ 0 && p.isChildOf q) = true := hparent
        rw [Bool.and_eq_true, decide_eq_true_eq] at hdef
        exact hdef.1
      rw [ih p hp hparent hp fun _ => ⟨hp0, q, hq, hchild⟩]

include hindex in
theorem isTreeRoot_iff {p : ProcessInfo} : s.isTreeRoot p = true ↔ p.parentId = 0 ∨
    ∀ q ∈ s.processes, q.id = p.parentId → p.key.created < q.key.created := by
  unfold ProcessManager.isTreeRoot
  rw [Bool.or_eq_true, decide_eq_true_eq]
  refine or_congr_right ?_
  cases hlookup : s.processesById.lookup p.parentId with
  | none =>
    simp only [true_iff]
    intro q hq hid
    have hsome := (hindex p.parentId q).mpr ⟨hq, hid⟩
    rw [hlookup] at hsome
    cases hsome
  | some parent =>
    rw [decide_eq_true_eq]
    constructor
    · intro hlt q hq hid
      have hsome := (hindex p.parentId q).mpr ⟨hq, hid⟩
      rw [hlookup] at hsome
      cases hsome
      exact hlt
    · intro hall
      obtain ⟨hmem, hid⟩ := (hindex p.parentId parent).mp hlookup
      exact hall parent hmem hid

theorem lineage_isRoot_iff {p : ProcessInfo} : (lineage s.processes h).isRoot p = true ↔
    p.parentId = 0 ∨ ∀ q ∈ s.processes, q.id = p.parentId → ¬ q.key.created < p.key.created := by
  rw [Lineage.isRoot_iff]
  constructor
  · intro hall
    by_cases hp : p.parentId = 0
    · exact .inl hp
    · refine .inr fun q hq hid hlt => ?_
      have hfalse : (p.parentId ≠ 0 && p.isChildOf q) = false := hall q hq
      rw [isChildOf_iff.mpr ⟨hid.symm, hlt⟩, Bool.and_true, decide_eq_false_iff_not] at hfalse
      exact hfalse hp
  · intro hall q hq
    have hdef : (lineage s.processes h).parentOf q p = (p.parentId ≠ 0 && p.isChildOf q) := rfl
    rw [hdef, Bool.and_eq_false_iff, decide_eq_false_iff_not, Bool.eq_false_iff, ne_eq, ne_eq,
      isChildOf_iff, not_not]
    cases hall with
    | inl hp => exact .inl hp
    | inr hall => exact .inr fun hchild => hall q hq hchild.1.symm hchild.2

include hindex in
/-- The tree is the forest of the lineage. -/
theorem tree_eq_forest (hu : Untied s.processes) :
    s.tree = (lineage s.processes h).forest.map fun x => (some x.1, x.2) := by
  rw [ProcessManager.tree, Lineage.forest, List.map_flatMap]
  refine List.flatMap_congr fun p hp => ?_
  have hroot : s.isTreeRoot p = (lineage s.processes h).isRoot p := by
    rw [Bool.eq_iff_iff, isTreeRoot_iff hindex, lineage_isRoot_iff h]
    by_cases hp0 : p.parentId = 0
    · exact iff_of_true (.inl hp0) (.inl hp0)
    · rw [or_iff_right hp0, or_iff_right hp0]
      refine forall_congr' fun q => forall_congr' fun hq => forall_congr' fun hid => ?_
      have hne := hu.ties p hp q hq hp0 hid
      constructor
      · exact fun hlt => Int64.not_lt.mpr (Int64.le_of_lt hlt)
      · intro hlt
        exact Int64.lt_of_le_of_ne (Int64.not_lt.mp hlt) hne.symm
  rw [hroot]
  cases hr : (lineage s.processes h).isRoot p with
  | false => rfl
  | true =>
    rw [if_pos rfl, if_pos rfl, List.map_cons]
    congr 1
    split
    · next hid =>
      -- the idle process: nobody has its ID for a parent
      rw [Lineage.below_eq, eq_comm, List.map_eq_nil_iff, List.flatMap_eq_nil_iff]
      intro c hc
      refine if_neg fun hchild => ?_
      have hdef : (c.parentId ≠ 0 && c.isChildOf p) = true := hchild
      rw [Bool.and_eq_true, decide_eq_true_eq, isChildOf_iff] at hdef
      exact hdef.1 (hdef.2.1.trans hid)
    · next hid =>
      rw [findChildren_eq_below h hu hp (fun h0 => absurd h0 hid), List.map_map]
      refine List.map_congr_left fun x hx => ?_
      have hmem : x.1 ∈ s.processes := Lineage.mem_nodes_of_mem_below hp hx
      have hlookup := (hindex x.1.id x.1).mpr ⟨hmem, rfl⟩
      simp [hlookup]

theorem isParentOf_iff (hu : Untied s.processes) {p q : ProcessInfo} (hp : p ∈ s.processes)
    (hq : q ∈ s.processes) : q.IsParentOf p ↔ (lineage s.processes h).parentOf q p = true := by
  have hdef : (lineage s.processes h).parentOf q p = (p.parentId ≠ 0 && p.isChildOf q) := rfl
  rw [hdef, Bool.and_eq_true, decide_eq_true_eq, isChildOf_iff, ProcessInfo.IsParentOf]
  constructor
  · rintro ⟨hp0, hid, hlt, -⟩
    exact ⟨hp0, hid.symm, Int64.lt_of_le_of_ne (Int64.not_lt.mp hlt) (hu.ties p hp q hq hp0 hid)⟩
  · rintro ⟨hp0, hid, hlt⟩
    refine ⟨hp0, hid.symm, Int64.not_lt.mpr (Int64.le_of_lt hlt), fun heq => ?_⟩
    obtain rfl := List.inj_on_of_nodup_map h hq hp heq
    exact Int64.lt_irrefl hlt

include h hindex in
theorem completeForest_of_untied (hu : Untied s.processes) :
    CompleteForest s.processes s.tree := by
  have hforest := tree_eq_forest h hindex hu
  have hnodes : (lineage s.processes h).nodes = s.processes := rfl
  refine ⟨?_, ?_⟩
  · rw [hforest, List.map_map]
    have hperm := (Lineage.forest_perm (F := lineage s.processes h)).map some
    rwa [List.map_map] at hperm
  · intro pre p depth post hsplit
    rw [hforest] at hsplit
    obtain ⟨pre', rest, hsplit', hpre', hrest⟩ := List.map_eq_append_iff.mp hsplit
    obtain ⟨x, post', rfl, hx, -⟩ := List.map_eq_cons_iff.mp hrest
    obtain ⟨p', depth'⟩ := x
    obtain ⟨rfl, rfl⟩ : p' = p ∧ depth' = depth := by simpa using hx
    have hmem : ∀ x ∈ pre' ++ (p', depth') :: post', x.1 ∈ s.processes := by
      intro x hx
      rw [← hsplit'] at hx
      exact (Lineage.mem_forest_iff x.1).mp (List.mem_map_of_mem hx)
    have hp := hmem (p', depth') (by simp)
    rcases Lineage.forest_placed hsplit' with ⟨hdepth, hroot⟩ | ⟨before, q, e, between, hpre, hd, hqp,
      hbetween⟩
    · refine .inl ⟨hdepth, fun q hq hparent => ?_⟩
      have hnot := Lineage.isRoot_iff.mp hroot q hq
      rw [(isParentOf_iff h hu hp hq).mp hparent] at hnot
      cases hnot
    · have hq := hmem (q, e) (by rw [hpre]; simp)
      refine .inr ⟨before.map fun x => (some x.1, x.2), q, e,
        between.map fun x => (some x.1, x.2), ?_, hd, (isParentOf_iff h hu hp hq).mpr hqp, ?_⟩
      · rw [← hpre', hpre, List.map_append, List.map_cons]
      · intro x hx
        obtain ⟨y, hy, rfl⟩ := List.mem_map.mp hx
        exact hbetween y hy

/-! ## what is lost and what is twice -/

include hindex in
/-- A listed process is a root or the child of an older one. -/
theorem of_mem_tree {o : Option ProcessInfo} (ho : o ∈ s.tree.map Prod.fst) :
    ∃ p ∈ s.processes, o = some p ∧
      (s.isTreeRoot p = true ∨ ∃ q ∈ s.processes, p.isChildOf q = true) := by
  rw [ProcessManager.tree, List.map_flatMap, List.mem_flatMap] at ho
  obtain ⟨r, hr, ho⟩ := ho
  split at ho
  · next hroot =>
    rw [List.map_cons, List.mem_cons] at ho
    cases ho with
    | inl ho => exact ⟨r, hr, ho, .inl hroot⟩
    | inr ho =>
      split at ho
      · cases ho
      · rw [List.map_map] at ho
        obtain ⟨child, hchild, rfl⟩ := List.mem_map.mp ho
        obtain ⟨p, hp, hid, hparent⟩ := exists_parent_of_mem hr (List.mem_map_of_mem hchild)
        exact ⟨p, hp, (hindex child.1 p).mpr ⟨hp, hid⟩, .inr hparent⟩
  · cases ho

include h hindex in
/-- A process as old as the one with its parent's ID is not listed. -/
theorem ties_of_complete (hc : CompleteForest s.processes s.tree) {p q : ProcessInfo}
    (hp : p ∈ s.processes) (hq : q ∈ s.processes) (hp0 : p.parentId ≠ 0) (hid : q.id = p.parentId) :
    q.key.created ≠ p.key.created := by
  intro htie
  have hmem : some p ∈ s.tree.map Prod.fst :=
    hc.perm.mem_iff.mpr (List.mem_map_of_mem hp)
  obtain ⟨p', hp', heq, hlisted⟩ := of_mem_tree hindex hmem
  cases heq
  cases hlisted with
  | inl hroot =>
    have hlt := ((isTreeRoot_iff hindex).mp hroot).resolve_left hp0 q hq hid
    rw [htie] at hlt
    exact Int64.lt_irrefl hlt
  | inr hchild =>
    obtain ⟨r, hr, hchild⟩ := hchild
    obtain ⟨hrid, hlt⟩ := isChildOf_iff.mp hchild
    obtain rfl := List.inj_on_of_nodup_map h hr hq (hrid.symm.trans hid.symm)
    rw [htie] at hlt
    exact Int64.lt_irrefl hlt

/-- What is listed below a root. -/
theorem mem_children_iff (hindex : s.processesById.Indexes ProcessInfo.id s.processes)
    {p : ProcessInfo} (hp : p ∈ s.processes) (r : ProcessInfo) :
    some p ∈ ((findChildren s.processes r 1).map fun child =>
        (s.processesById.lookup child.1, child.2)).map Prod.fst ↔
      p.id ∈ (findChildren s.processes r 1).map Prod.fst := by
  rw [List.map_map, List.mem_map, List.mem_map]
  refine exists_congr fun child => and_congr_right fun _ => ?_
  constructor
  · exact fun hlookup => ((hindex child.1 p).mp hlookup).2.symm
  · exact fun hid => (hindex child.1 p).mpr ⟨hp, hid.symm⟩

include h hindex in
/-- A process with parent ID 0 is listed as a root, and below an older one with ID 0 that is not one
itself. -/
theorem zero_of_complete (hc : CompleteForest s.processes s.tree) {z q p : ProcessInfo}
    (hz : z ∈ s.processes) (hq : q ∈ s.processes) (hp : p ∈ s.processes) (hz0 : z.id = 0)
    (hzp : z.parentId ≠ 0) (hid : q.id = z.parentId) (hlt : ¬ z.key.created < q.key.created)
    (hp0 : p.parentId = 0) : ¬ z.key.created < p.key.created := by
  intro hyounger
  have hnodup : (s.tree.map Prod.fst).Nodup :=
    hc.perm.nodup_iff.mpr ((List.Nodup.of_map _ h).map (Option.some_injective _))
  have hmem : some z ∈ s.tree.map Prod.fst := hc.perm.mem_iff.mpr (List.mem_map_of_mem hz)
  rw [ProcessManager.tree, List.map_flatMap, List.mem_flatMap] at hmem
  rw [ProcessManager.tree, List.map_flatMap, List.nodup_flatMap] at hnodup
  obtain ⟨hblocks, hapart⟩ := hnodup
  obtain ⟨r, hr, hzr⟩ := hmem
  have hzroot : s.isTreeRoot z ≠ true := fun hroot =>
    hlt (((isTreeRoot_iff hindex).mp hroot).resolve_left hzp q hq hid)
  have hproot : s.isTreeRoot p = true := (isTreeRoot_iff hindex).mpr (.inl hp0)
  split at hzr
  · next hroot =>
    -- `z` is below `r`, and so is `p`
    have hbelow : some p ∈ ((if r.id = 0 then [] else (findChildren s.processes r 1).map
        fun child => (s.processesById.lookup child.1, child.2)) :
          List (Option ProcessInfo × ℕ)).map Prod.fst := by
      rw [List.map_cons, List.mem_cons] at hzr
      cases hzr with
      | inl heq =>
        cases heq
        exact absurd hroot hzroot
      | inr hzr =>
        split at hzr
        · cases hzr
        · next hr0 =>
          rw [if_neg hr0, mem_children_iff hindex hp]
          rw [mem_children_iff hindex hz] at hzr
          exact mem_findChildren_of_child h hz hp
            (isChildOf_iff.mpr ⟨hp0.trans hz0.symm, hyounger⟩) hzr
    by_cases hrp : r = p
    · subst hrp
      have hblock := hblocks r hr
      rw [if_pos hroot, List.map_cons, List.nodup_cons] at hblock
      exact hblock.1 hbelow
    · have hsymm : ∀ f : ProcessInfo → List (Option ProcessInfo),
          Std.Symm (Function.onFun List.Disjoint f) := fun _ => ⟨fun _ _ hd => hd.symm⟩
      have hdisjoint := hapart.forall hr hp hrp
      change List.Disjoint _ _ at hdisjoint
      simp only [hroot, hproot, if_true, List.map_cons] at hdisjoint
      exact hdisjoint (List.mem_cons_of_mem _ hbelow) List.mem_cons_self
  · cases hzr

include h hindex in
theorem completeForest_iff : CompleteForest s.processes s.tree ↔ Untied s.processes := by
  constructor
  · intro hc
    constructor
    · intro p hp q hq hp0 hid
      exact ties_of_complete h hindex hc hp hq hp0 hid
    · intro z hz q hq p hp hz0 hzp hid hlt hp0
      exact zero_of_complete h hindex hc hz hq hp hz0 hzp hid hlt hp0
  · exact completeForest_of_untied h hindex

end Forest

/-! ## every snapshot -/

def Snapshot.DistinctIds (s : Snapshot) : Prop := (s.entries.map fun e => e.key.id).Nodup

/-- The IDs of the processes a call gets are distinct. -/
def DistinctIds (w : Watched) (c : Call) : Prop :=
  ∀ taken ∈ w.manager.taken c, taken.snapshot.DistinctIds

instance : DecidablePred Snapshot.DistinctIds := fun _ => inferInstanceAs (Decidable (List.Nodup _))

instance (w : Watched) : DecidablePred (DistinctIds w) := fun _ =>
  inferInstanceAs (Decidable (∀ _ ∈ _, _))

/-- What the tree needs of the state before it. -/
structure Numbered (w : Watched) : Prop where
  listed : Listed w.manager w.history.entries
  ids : ∀ p ∈ w.manager.processes, p.id = p.key.id

theorem Snapshot.DistinctIds.keys {s : Snapshot} (h : s.DistinctIds) : s.DistinctProcesses := by
  refine List.Nodup.of_map ProcessOrThreadKey.id ?_
  rw [List.map_map]
  exact h

section Update

variable {m : Machine} {s : ProcessManager} {includeThreads : Bool} {pid : UInt32} {query : Query}
  {ticks : Int64} {snapshot : Snapshot}

theorem update_taken_ids {before : List ProcessEntry} (h : Listed s before)
    (hids : ∀ p ∈ s.processes, p.id = p.key.id)
    (hq : (s.queried query).result = some ⟨ticks, snapshot⟩) (hd : snapshot.DistinctProcesses) :
    ∀ p ∈ (s.update m includeThreads pid query).processes, p.id = p.key.id := by
  have hspec := walkProcesses_diffed m h query ticks hd
  obtain ⟨hprocesses, -⟩ := @update_taken_processes m s includeThreads pid query ticks snapshot hq
  intro p hp
  rw [hprocesses] at hp
  obtain ⟨e, -, hb⟩ := hspec.exists_of_mem hp
  unfold Differ.Became at hb
  split at hb
  · obtain ⟨i, rfl⟩ := hb
    rfl
  · next w hw =>
    have hmem := ((h.index _ w).mp hw).1
    have hw' := hids w hmem
    rw [hb]
    exact hw'

theorem update_taken_byId (hq : (s.queried query).result = some ⟨ticks, snapshot⟩) :
    (s.update m includeThreads pid query).processesById
      = byId ProcessInfo.id (s.update m includeThreads pid query).processes := by
  rw [ProcessManager.update_taken hq]
  cases includeThreads <;> rfl

theorem byId_indexes {l : List ProcessInfo} (h : (l.map ProcessInfo.id).Nodup) :
    (byId ProcessInfo.id l).Indexes ProcessInfo.id l := by
  have hfold : ∀ (done l : List ProcessInfo) (map : Finmap fun _ : UInt32 => ProcessInfo),
      map.Indexes ProcessInfo.id done → ((done ++ l).map ProcessInfo.id).Nodup →
      (l.foldl (fun map p => map.insertNew p.id p) map).Indexes ProcessInfo.id (done ++ l) := by
    intro done l
    induction l generalizing done with
    | nil =>
      intro map hmap _
      rwa [List.append_nil]
    | cons p l ih =>
      intro map hmap hnodup
      rw [List.append_cons] at hnodup ⊢
      refine ih (done ++ [p]) _ (hmap.insertNew ?_ rfl) hnodup
      rw [List.map_append, List.map_append] at hnodup
      exact fun hm => List.disjoint_of_nodup_append (List.Nodup.of_append_left hnodup) hm
        List.mem_cons_self
  exact hfold [] l ∅ Finmap.Indexes.empty h

end Update

theorem numbered_step (m : Machine) (w : Watched) (c : Call) (h : Numbered w)
    (hd : DistinctIds w c) : Numbered (w.step m c) := by
  refine ⟨listed_step h.listed fun taken htaken => (hd taken htaken).keys, ?_⟩
  show ∀ p ∈ (w.manager.step m c).processes, p.id = p.key.id
  cases htaken : w.manager.taken c with
  | none =>
    rw [ProcessManager.step, ProcessManager.update_failed htaken]
    exact h.ids
  | some taken => exact update_taken_ids h.listed h.ids htaken (hd taken htaken).keys

/-- **The tree is a complete forest exactly when there are no ties**, for every snapshot with
distinct IDs, whatever was asked for before. -/
theorem tree_complete_iff (m : Machine) (calls : List Call)
    (hcalls : Along (Watched.step m) DistinctIds {} calls) (query : Query) (taken : Taken)
    (htaken : ((run (Watched.step m) {} calls).manager.queried query).result = some taken)
    (hs : taken.snapshot.DistinctIds) :
    let s := (run (Watched.step m) {} calls).manager
    let ps := (s.update m false 0 query).processes
    ps.map ProcessInfo.key = taken.snapshot.entries.map ProcessEntry.key ∧
      (CompleteForest ps (s.buildProcessTree m query) ↔ Untied ps) := by
  intro s ps
  have hrun : Numbered (run (Watched.step m) {} calls) :=
    run_invariant (Watched.step m) Numbered (fun w c hw hc => numbered_step m w c hw hc)
      ⟨listed_start, fun _ hp => nomatch hp⟩ hcalls
  have hkeys : ps.map ProcessInfo.key = taken.snapshot.entries.map ProcessEntry.key :=
    (update_taken_listed hrun.listed htaken hs.keys).keys
  have hids : ∀ p ∈ ps, p.id = p.key.id := update_taken_ids hrun.listed hrun.ids htaken hs.keys
  refine ⟨hkeys, ?_⟩
  have hnodup : (ps.map ProcessInfo.id).Nodup := by
    have heq : ps.map ProcessInfo.id = (ps.map ProcessInfo.key).map ProcessOrThreadKey.id := by
      rw [List.map_map]
      exact List.map_congr_left hids
    rw [heq, hkeys, List.map_map]
    exact hs
  have hindex : (s.update m false 0 query).processesById.Indexes ProcessInfo.id ps := by
    rw [update_taken_byId htaken]
    exact byId_indexes hnodup
  exact completeForest_iff hnodup hindex

/-- A process and a child of it that was created at the same time. -/
def tiedSnapshot : Snapshot := ⟨[⟨0, 1, 4, 0, []⟩, ⟨64, 1, 8, 4, []⟩], {}⟩

theorem tree_complete_iff_tied :
    let s := (run (Watched.step ⟨2, 10000000⟩) {} [.update (.failed {})]).manager
    let ps := (s.update ⟨2, 10000000⟩ false 0 (.ok 10 tiedSnapshot)).processes
    ps.map ProcessInfo.key = tiedSnapshot.entries.map ProcessEntry.key ∧
      (CompleteForest ps (s.buildProcessTree ⟨2, 10000000⟩ (.ok 10 tiedSnapshot)) ↔ Untied ps) :=
  tree_complete_iff ⟨2, 10000000⟩ [.update (.failed {})] (by decide) (.ok 10 tiedSnapshot)
    ⟨10, tiedSnapshot⟩ rfl (by decide)

/-- The child is not in the tree. -/
theorem tied_child_lost :
    ¬ ∀ (m : Machine) (ticks : Int64) (snapshot : Snapshot), snapshot.DistinctIds →
      CompleteForest ((({} : ProcessManager).update m false 0 (.ok ticks snapshot)).processes)
        (({} : ProcessManager).buildProcessTree m (.ok ticks snapshot)) := by
  intro h
  have hnodup : ((({} : ProcessManager).update ⟨2, 10000000⟩ false 0 (.ok 10 tiedSnapshot)).processes.map
      ProcessInfo.id).Nodup := by decide
  have hu := (completeForest_iff hnodup (byId_indexes hnodup)).mp
    (h ⟨2, 10000000⟩ 10 tiedSnapshot (by decide))
  exact hu.ties ⟨1, ⟨⟨0, 1⟩, 64⟩, 8, 4, ⟨1, 8⟩, 0, 0⟩ (by decide)
    ⟨0, ⟨⟨0, 1⟩, 0⟩, 4, 0, ⟨1, 4⟩, 0, 0⟩ (by decide) (by decide) rfl rfl

end WinSys.Process
