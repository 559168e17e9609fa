import Mathlib.Algebra.Order.Ring.Int
import Mathlib.Data.List.Nodup
import Mathlib.Logic.Relation

/-!
# Forests by parent links

Nodes that may have a parent, always an older one. `Lineage.forest` lists them from the roots in
pre-order; it has every node once, and each one inside its parent's subtree.
-/

namespace Infra

/-- Nodes with at most one parent each. -/
structure Lineage (α : Type*) where
  nodes : List α
  parentOf : α → α → Bool
  rank : α → ℤ
  nodup : nodes.Nodup
  older : ∀ {q p : α}, parentOf q p = true → rank q < rank p
  unique : ∀ {q q' p : α}, q ∈ nodes → q' ∈ nodes → parentOf q p = true → parentOf q' p = true →
    q = q'

namespace Lineage

variable {α : Type*} (F : Lineage α)

/-- How many nodes are younger. -/
def younger (q : α) : ℕ := (F.nodes.filter fun p => F.rank q < F.rank p).length

omit F in
theorem length_filter_lt {l : List α} {t t' : α → Bool} (h : ∀ x, t x = true → t' x = true) {a : α}
    (ha : a ∈ l) (hta : t a = false) (hta' : t' a = true) :
    (l.filter t).length < (l.filter t').length := by
  have hfilter : l.filter t = (l.filter t').filter t := by
    rw [List.filter_filter]
    refine List.filter_congr fun x _ => ?_
    cases hx : t x with
    | false => rfl
    | true => rw [h x hx]; rfl
  rw [hfilter, List.length_filter_lt_length_iff_exists]
  exact ⟨a, List.mem_filter.mpr ⟨ha, hta'⟩, by simp [hta]⟩

variable {F} in
theorem younger_lt {q p : α} (hp : p ∈ F.nodes) (h : F.rank q < F.rank p) :
    F.younger p < F.younger q :=
  length_filter_lt (fun _ hx => decide_eq_true (h.trans (of_decide_eq_true hx))) hp (by simp)
    (decide_eq_true h)

/-- The nodes below one, in pre-order, the first ones at a depth. -/
def below (q : α) (depth : ℕ) : List (α × ℕ) :=
  F.nodes.attach.flatMap fun p =>
    if _ : F.parentOf q p.val then (p.val, depth) :: below p.val (depth + 1) else []
termination_by F.younger q
decreasing_by exact younger_lt p.property (F.older (by assumption))

def isRoot (p : α) : Bool := F.nodes.all fun q => !F.parentOf q p

/-- All nodes: the roots, each with what is below it. -/
def forest : List (α × ℕ) :=
  F.nodes.flatMap fun p => if F.isRoot p then (p, 0) :: F.below p 1 else []

/-- The place behind `pre` is in the subtree of a parent of `p`, one level below it. -/
def PlacedUnder (pre : List (α × ℕ)) (p : α) (depth : ℕ) : Prop :=
  ∃ before q e between, pre = before ++ (q, e) :: between ∧ depth = e + 1 ∧
    F.parentOf q p = true ∧ ∀ x ∈ between, e < x.2

/-! ## lists of blocks -/

theorem flatMap_attach {β : Type*} (l : List α) (f : α → List β) :
    (l.attach.flatMap fun a => f a.val) = l.flatMap f := by
  conv_rhs => rw [← List.attach_map_subtype_val l, List.flatMap_map]

/-- An element of a list of blocks is in one of them. -/
theorem flatMap_eq_append_cons {β : Type*} {l : List α} {f : α → List β} {pre post : List β} {b : β}
    (h : l.flatMap f = pre ++ b :: post) :
    ∃ l₁ a l₂ pre' post', l = l₁ ++ a :: l₂ ∧ pre = l₁.flatMap f ++ pre' ∧
      f a = pre' ++ b :: post' := by
  induction l generalizing pre with
  | nil => simp at h
  | cons a l ih =>
    rw [List.flatMap_cons] at h
    obtain ⟨mid, rfl, hmid⟩ | ⟨mid, hmid, hpost⟩ := List.append_eq_append_iff.mp h
    · obtain ⟨l₁, a', l₂, pre', post', rfl, rfl, ha'⟩ := ih hmid
      refine ⟨a :: l₁, a', l₂, pre', post', rfl, ?_, ha'⟩
      rw [List.flatMap_cons, List.append_assoc]
    · cases mid with
      | nil =>
        obtain ⟨l₁, a', l₂, pre', post', rfl, hpre, ha'⟩ := @ih [] hpost.symm
        refine ⟨a :: l₁, a', l₂, pre', post', rfl, ?_, ha'⟩
        rw [List.append_nil] at hmid
        rw [List.flatMap_cons, List.append_assoc, ← hpre, hmid, List.append_nil]
      | cons b' mid =>
        rw [List.cons_append] at hpost
        obtain ⟨rfl, rfl⟩ := List.cons.inj hpost
        exact ⟨[], a, l, pre, mid, rfl, rfl, hmid⟩

variable {F}

theorem below_eq (q : α) (depth : ℕ) :
    F.below q depth = F.nodes.flatMap fun p =>
      if F.parentOf q p then (p, depth) :: F.below p (depth + 1) else [] := by
  rw [below]
  exact flatMap_attach F.nodes fun p =>
    if F.parentOf q p then (p, depth) :: F.below p (depth + 1) else []

/-- Induction from the youngest nodes. -/
theorem descend {motive : α → Prop}
    (h : ∀ q, (∀ p ∈ F.nodes, F.parentOf q p = true → motive p) → motive q) (q : α) : motive q := by
  induction hn : F.younger q using Nat.strongRecOn generalizing q with
  | _ n ih => exact h q fun p hp hqp => ih _ (hn ▸ younger_lt hp (F.older hqp)) p rfl

/-! ## who is below -/

/-- A node and a child of it. -/
def Link (F : Lineage α) (q p : α) : Prop := q ∈ F.nodes ∧ p ∈ F.nodes ∧ F.parentOf q p = true

theorem mem_below_iff {q : α} (hq : q ∈ F.nodes) (x : α) (depth : ℕ) :
    x ∈ (F.below q depth).map Prod.fst ↔ Relation.TransGen F.Link q x := by
  induction q using F.descend generalizing depth with
  | h q ih =>
    rw [below_eq, List.map_flatMap, List.mem_flatMap]
    constructor
    · rintro ⟨p, hp, hx⟩
      split at hx
      · next hqp =>
        rw [List.map_cons, List.mem_cons] at hx
        have hlink : F.Link q p := ⟨hq, hp, hqp⟩
        cases hx with
        | inl hx => exact hx ▸ .single hlink
        | inr hx => exact .head hlink ((ih p hp hqp hp _).mp hx)
      · cases hx
    · intro hx
      rcases Relation.TransGen.head'_iff.mp hx with ⟨p, ⟨-, hp, hqp⟩, hpx⟩
      refine ⟨p, hp, ?_⟩
      rw [if_pos hqp, List.map_cons, List.mem_cons]
      rcases Relation.reflTransGen_iff_eq_or_transGen.mp hpx with hx | hx
      · exact .inl hx
      · exact .inr ((ih p hp hqp hp _).mpr hx)

theorem mem_nodes_of_mem_below {q : α} (hq : q ∈ F.nodes) {x : α × ℕ} {depth : ℕ}
    (hx : x ∈ F.below q depth) : x.1 ∈ F.nodes := by
  have htrans := (mem_below_iff hq x.1 depth).mp (List.mem_map_of_mem hx)
  obtain ⟨c, -, hc⟩ := Relation.TransGen.tail'_iff.mp htrans
  exact hc.2.1

theorem rank_le_of_reflTransGen {q x : α} (h : Relation.ReflTransGen F.Link q x) :
    F.rank q ≤ F.rank x := by
  induction h with
  | refl => exact le_refl _
  | tail _ hlink ih => exact ih.trans (F.older hlink.2.2).le

/-- Of two ancestors of a node one is an ancestor of the other. -/
theorem total_of_below {a b x : α} (ha : Relation.ReflTransGen F.Link a x)
    (hb : Relation.ReflTransGen F.Link b x) :
    Relation.ReflTransGen F.Link a b ∨ Relation.ReflTransGen F.Link b a := by
  have hunique : Relator.RightUnique (Function.swap F.Link) := fun p q q' hq hq' =>
    F.unique hq.1 hq'.1 hq.2.2 hq'.2.2
  have htotal := Relation.ReflTransGen.total_of_right_unique hunique
    (Relation.reflTransGen_swap.mpr ha) (Relation.reflTransGen_swap.mpr hb)
  cases htotal with
  | inl h => exact .inr (Relation.reflTransGen_swap.mp h)
  | inr h => exact .inl (Relation.reflTransGen_swap.mp h)

/-- A node and all below it. -/
def block (F : Lineage α) (p : α) (depth : ℕ) : List (α × ℕ) := (p, depth) :: F.below p (depth + 1)

theorem mem_block_iff {p : α} (hp : p ∈ F.nodes) (x : α) (depth : ℕ) :
    x ∈ (F.block p depth).map Prod.fst ↔ Relation.ReflTransGen F.Link p x := by
  rw [block, List.map_cons, List.mem_cons, mem_below_iff hp,
    Relation.reflTransGen_iff_eq_or_transGen]

/-- Blocks of nodes none of which is above another have nothing in common. -/
theorem disjoint_blocks {p p' : α} (hp : p ∈ F.nodes) (hp' : p' ∈ F.nodes)
    (h : ¬ Relation.ReflTransGen F.Link p p') (h' : ¬ Relation.ReflTransGen F.Link p' p)
    (depth : ℕ) : List.Disjoint ((F.block p depth).map Prod.fst) ((F.block p' depth).map Prod.fst) := by
  intro x hx hx'
  rw [mem_block_iff hp] at hx
  rw [mem_block_iff hp'] at hx'
  exact (total_of_below hx hx').elim h h'

/-! ## every node once -/

/-- Blocks of nodes none of which is above another. -/
theorem nodup_blocks (t : α → Bool) (depth : ℕ)
    (hblock : ∀ p ∈ F.nodes, t p = true → ((F.below p (depth + 1)).map Prod.fst).Nodup)
    (hapart : ∀ p ∈ F.nodes, ∀ p' ∈ F.nodes, t p = true → t p' = true → p ≠ p' →
      ¬ Relation.ReflTransGen F.Link p p') :
    ((F.nodes.flatMap fun p => if t p then F.block p depth else []).map Prod.fst).Nodup := by
  rw [List.map_flatMap, List.nodup_flatMap]
  constructor
  · intro p hp
    split
    · next htp =>
      rw [block, List.map_cons, List.nodup_cons, mem_below_iff hp]
      refine ⟨fun hself => ?_, hblock p hp htp⟩
      obtain ⟨c, hpc, hcp⟩ := Relation.TransGen.tail'_iff.mp hself
      have hle := rank_le_of_reflTransGen hpc
      exact absurd (F.older hcp.2.2) (not_lt.mpr hle)
    · exact List.nodup_nil
  · refine F.nodup.imp_of_mem fun {p p'} hp hp' hne => ?_
    change List.Disjoint _ _
    beta_reduce
    split
    · next htp =>
      split
      · next htp' =>
        exact disjoint_blocks hp hp' (hapart p hp p' hp' htp htp' hne)
          (hapart p' hp' p hp htp' htp hne.symm) depth
      · exact fun x _ hx => nomatch hx
    · exact fun x hx => nomatch hx

theorem nodup_below {q : α} (hq : q ∈ F.nodes) (depth : ℕ) :
    ((F.below q depth).map Prod.fst).Nodup := by
  induction q using F.descend generalizing depth with
  | h q ih =>
    rw [below_eq]
    refine nodup_blocks (F.parentOf q) depth (fun p hp hqp => ih p hp hqp hp _) ?_
    intro p hp p' hp' hqp hqp' hne hpp'
    rcases Relation.reflTransGen_iff_eq_or_transGen.mp hpp' with heq | htrans
    · exact hne heq.symm
    · -- the last link to `p'` is from `q`, which is older than `p`
      obtain ⟨c, hpc, hc⟩ := Relation.TransGen.tail'_iff.mp htrans
      obtain rfl := F.unique hc.1 hq hc.2.2 hqp'
      have := rank_le_of_reflTransGen hpc
      have := F.older hqp
      omega

theorem isRoot_iff {p : α} : F.isRoot p = true ↔ ∀ q ∈ F.nodes, F.parentOf q p = false := by
  simp [isRoot]

theorem nodup_forest : (F.forest.map Prod.fst).Nodup := by
  refine nodup_blocks F.isRoot 0 (fun p hp _ => nodup_below hp _) ?_
  intro p hp p' hp' _ hroot hne hpp'
  rcases Relation.reflTransGen_iff_eq_or_transGen.mp hpp' with heq | htrans
  · exact hne heq.symm
  · obtain ⟨c, -, hc⟩ := Relation.TransGen.tail'_iff.mp htrans
    have hnot := isRoot_iff.mp hroot c hc.1
    rw [hc.2.2] at hnot
    cases hnot

/-- Up from a node there is a root. -/
theorem exists_root {x : α} (hx : x ∈ F.nodes) :
    ∃ r ∈ F.nodes, F.isRoot r = true ∧ Relation.ReflTransGen F.Link r x := by
  induction hn : (F.nodes.filter fun y => F.rank y < F.rank x).length using Nat.strongRecOn
    generalizing x with
  | _ n ih =>
    cases hroot : F.isRoot x with
    | true => exact ⟨x, hx, hroot, .refl⟩
    | false =>
      obtain ⟨q, hq, hqx⟩ : ∃ q ∈ F.nodes, F.parentOf q x = true := by
        simpa [isRoot] using hroot
      have hlt := F.older hqx
      have hfewer := @length_filter_lt _ F.nodes (fun y => F.rank y < F.rank q)
        (fun y => F.rank y < F.rank x)
        (fun _ hy => decide_eq_true ((of_decide_eq_true hy).trans hlt)) q hq (by simp)
        (decide_eq_true hlt)
      obtain ⟨r, hr, hrroot, hrq⟩ := ih _ (hn ▸ hfewer) hq rfl
      exact ⟨r, hr, hrroot, hrq.tail ⟨hq, hx, hqx⟩⟩

theorem mem_forest_iff (x : α) : x ∈ F.forest.map Prod.fst ↔ x ∈ F.nodes := by
  rw [forest, List.map_flatMap, List.mem_flatMap]
  constructor
  · rintro ⟨p, hp, hx⟩
    split at hx
    · have hpx := (mem_block_iff hp x 0).mp hx
      rcases Relation.reflTransGen_iff_eq_or_transGen.mp hpx with heq | htrans
      · exact heq ▸ hp
      · obtain ⟨c, -, hc⟩ := Relation.TransGen.tail'_iff.mp htrans
        exact hc.2.1
    · cases hx
  · intro hx
    obtain ⟨r, hr, hroot, hrx⟩ := exists_root hx
    refine ⟨r, hr, ?_⟩
    rw [if_pos hroot]
    exact (mem_block_iff hr x 0).mpr hrx

/-- **Every node once.** -/
theorem forest_perm : (F.forest.map Prod.fst).Perm F.nodes :=
  (List.perm_ext_iff_of_nodup nodup_forest F.nodup).mpr mem_forest_iff

/-! ## every node in its place -/

theorem depth_le_of_mem_below {q : α} {depth : ℕ} {x : α × ℕ} (hx : x ∈ F.below q depth) :
    depth ≤ x.2 := by
  induction q using F.descend generalizing depth with
  | h q ih =>
    rw [below_eq, List.mem_flatMap] at hx
    obtain ⟨p, hp, hx⟩ := hx
    split at hx
    · next hqp =>
      cases List.mem_cons.mp hx with
      | inl h => exact h ▸ le_refl _
      | inr h => exact (Nat.le_succ _).trans (ih p hp hqp h)
    · cases hx

theorem PlacedUnder.append {pre : List (α × ℕ)} {p : α} {depth : ℕ} (h : F.PlacedUnder pre p depth)
    (more : List (α × ℕ)) : F.PlacedUnder (more ++ pre) p depth := by
  obtain ⟨before, q, e, between, rfl, hdepth, hparent, hbetween⟩ := h
  exact ⟨more ++ before, q, e, between, by rw [List.append_assoc], hdepth, hparent, hbetween⟩

/-- In a block, what is not its first node is in its place. -/
theorem placed_below {q : α} {depth : ℕ} {pre post : List (α × ℕ)} {p : α} {k : ℕ}
    (h : F.below q (depth + 1) = pre ++ (p, k) :: post) :
    F.PlacedUnder ((q, depth) :: pre) p k := by
  induction q using F.descend generalizing depth pre post with
  | h q ih =>
    have hall : ∀ x ∈ F.below q (depth + 1), depth + 1 ≤ x.2 :=
      fun _ hx => F.depth_le_of_mem_below hx
    have hpre : ∀ x ∈ pre, depth < x.2 :=
      fun x hx => hall x (by rw [h]; exact List.mem_append_left _ hx)
    rw [below_eq] at h
    obtain ⟨l₁, c, l₂, pre', post', hnodes, rfl, hc⟩ := flatMap_eq_append_cons h
    split at hc
    · next hqc =>
      cases pre' with
      | nil =>
        cases hc
        exact ⟨[], q, depth, _, rfl, rfl, hqc, hpre⟩
      | cons x pre' =>
        obtain ⟨rfl, hbelow⟩ := List.cons.inj hc
        have hmem : c ∈ F.nodes := by rw [hnodes]; simp
        have hplaced := ih c hmem hqc hbelow
        exact hplaced.append ((q, depth) :: _)
    · simp at hc

/-- **Every node is a root at depth 0 or in its parent's subtree, one level below it.** -/
theorem forest_placed {pre post : List (α × ℕ)} {p : α} {depth : ℕ}
    (h : F.forest = pre ++ (p, depth) :: post) :
    (depth = 0 ∧ F.isRoot p = true) ∨ F.PlacedUnder pre p depth := by
  obtain ⟨l₁, c, l₂, pre', post', hnodes, rfl, hc⟩ := flatMap_eq_append_cons h
  split at hc
  · next hroot =>
    cases pre' with
    | nil =>
      cases hc
      exact .inl ⟨rfl, hroot⟩
    | cons x pre' =>
      obtain ⟨rfl, hbelow⟩ := List.cons.inj hc
      exact .inr ((placed_below hbelow).append _)
  · simp at hc

end Lineage

end Infra
