import WinSys.Infra.Text
import WinSys.Security.AccessMask

/-!
# What the words of a mask tell

The words of a mask are the names of its cover: rights that were added, in order, and what was left
as a number. A text has one cover, and a cover one mask, except where two rights of files have one
name.

* `naming`: the cover a text is made of
* `decode_eq`, `naming_of`
* `TwoWays`, `decode_injective_iff`
-/

namespace WinSys.Security

open Infra

/-! ## the cover of a mask -/

def typeTurn (access : UInt32) (c : Cover Right) (r : Right) : Cover Right :=
  if r.Fits access c.left then c.pick Right.mask r else c

def standardTurn (c : Cover Right) (r : Right) : Cover Right :=
  if c.left &&& r.mask = r.mask then c.pick Right.mask r else c

def cover (rights : List Right) (access : UInt32) : Cover Right :=
  standard.foldl standardTurn (rights.foldl (typeTurn access) { left := access })

/-- The full access of a type, as a right. -/
def TypeRights.all (t : TypeRights) : Right := ⟨t.allAccess, wide "ALL_ACCESS"⟩

def tableOf (type : WString) : Option TypeRights := types.find? fun t => t.type = type

/-- The rights named for a mask, and what is left for the number. -/
def naming (type : WString) (access : UInt32) : Cover Right :=
  match tableOf type with
  | none => cover [] access
  | some t =>
    if access &&& t.allAccess = t.allAccess then
      let c := cover [] (access &&& ~~~t.allAccess)
      { c with picked := t.all :: c.picked }
    else cover t.rights access

def parts (c : Cover Right) : List WString :=
  c.picked.map Right.name ++ if c.left = 0 then [] else [hexText c.left]

/-! ## turns -/

section Turns

variable {access : UInt32} {c : Cover Right} {r : Right} {rights : List Right}

theorem typeTurn_of (h : Cover.Of Right.mask access c) :
    Cover.Of Right.mask access (typeTurn access c r) := by
  unfold typeTurn
  split
  · next hfits => exact h.pick hfits.1
  · exact h

theorem standardTurn_of (h : Cover.Of Right.mask access c) :
    Cover.Of Right.mask access (standardTurn c r) := by
  unfold standardTurn
  split
  · next hleft =>
    have hwithin : SubMask r.mask c.left := hleft
    exact h.pick (hwithin.trans h.left_subMask)
  · exact h

/-- **A cover makes up the mask.** -/
theorem cover_of (rights : List Right) (access : UInt32) :
    Cover.Of Right.mask access (cover rights access) := by
  have htype : Cover.Of Right.mask access (rights.foldl (typeTurn access) { left := access }) :=
    List.foldlRecOn rights _ Cover.of_nothing fun _ h _ _ => typeTurn_of h
  exact List.foldlRecOn standard _ htype fun _ h _ _ => standardTurn_of h

theorem typeTurn_or (c : Cover Right) (r : Right) :
    typeTurn access c r = c ∨ typeTurn access c r = c.pick Right.mask r := by
  unfold typeTurn
  split
  · exact .inr rfl
  · exact .inl rfl

theorem standardTurn_or (c : Cover Right) (r : Right) :
    standardTurn c r = c ∨ standardTurn c r = c.pick Right.mask r := by
  unfold standardTurn
  split
  · exact .inr rfl
  · exact .inl rfl

theorem cover_sublist (rights : List Right) (access : UInt32) :
    (cover rights access).picked.Sublist (rights ++ standard) := by
  have htype := Cover.picked_sublist (@typeTurn_or access) { left := access } rights
  rw [List.nil_append] at htype
  exact (Cover.picked_sublist standardTurn_or _ standard).trans (htype.append (List.Sublist.refl _))

end Turns

theorem all_ne_zero : ∀ t ∈ types, t.allAccess ≠ 0 := by decide +kernel

theorem mem_types_of_tableOf {type : WString} {t : TypeRights} (h : tableOf type = some t) :
    t ∈ types ∧ t.type = type := by
  refine ⟨List.mem_of_find?_eq_some h, ?_⟩
  have htype := List.find?_some h
  exact of_decide_eq_true htype

/-- **The rights named and the number make up the mask.** -/
theorem naming_of (type : WString) (access : UInt32) :
    Cover.Of Right.mask access (naming type access) := by
  unfold naming
  cases tableOf type with
  | none => exact cover_of [] access
  | some t =>
    dsimp only
    split
    · next hall =>
      have hrest := cover_of [] (access &&& ~~~t.allAccess)
      unfold Cover.Of at hrest ⊢
      rw [List.map_cons, union, List.foldr_cons, ← union, UInt32.or_assoc, hrest]
      exact or_and_not_of_subMask hall
    · exact cover_of t.rights access

/-! ## the text of a cover -/

/-- A name that is not part of another and is no number. -/
def Plain (name : WString) : Prop := name ≠ [] ∧ 0x20 ∉ name ∧ name.head? ≠ some 0x30

instance : DecidablePred Plain := fun _ => inferInstanceAs (Decidable (_ ∧ _))

theorem plain_types : ∀ t ∈ types, ∀ r ∈ t.all :: (t.rights ++ standard), Plain r.name := by
  decide +kernel

theorem plain_standard : ∀ r ∈ standard, Plain r.name := by decide +kernel

theorem plain_naming {type : WString} {access : UInt32} {r : Right}
    (h : r ∈ (naming type access).picked) : Plain r.name := by
  unfold naming at h
  cases htable : tableOf type with
  | none =>
    rw [htable] at h
    exact plain_standard r ((cover_sublist [] access).subset h)
  | some t =>
    rw [htable] at h
    dsimp only at h
    have hplain := plain_types t (mem_types_of_tableOf htable).1
    split at h
    · obtain rfl | h := List.mem_cons.mp h
      · exact hplain _ List.mem_cons_self
      · exact plain_standard r ((cover_sublist [] _).subset h)
    · exact hplain r (List.mem_cons_of_mem _ ((cover_sublist t.rights access).subset h))

/-- The words so far are the names of what was picked. -/
structure Shows (w : Words) (c : Cover Right) : Prop where
  text : w.text = separator.intercalate (c.picked.map Right.name)
  left : w.left = c.left
  names : ∀ r ∈ c.picked, r.name ≠ []

section Text

variable {access : UInt32} {w : Words} {c : Cover Right} {r : Right} {rights : List Right}

theorem add_intercalate {names : List WString} (h : ∀ name ∈ names, name ≠ []) (name : WString) :
    add (separator.intercalate names) name = separator.intercalate (names ++ [name]) := by
  unfold add
  cases names with
  | nil => simp
  | cons n names =>
    have hne : separator.intercalate (n :: names) ≠ [] := by
      rw [intercalate_cons]
      exact List.append_ne_nil_of_left_ne_nil (h n List.mem_cons_self) _
    rw [if_neg hne, intercalate_cons, List.cons_append, intercalate_cons, List.flatMap_append]
    simp

theorem Shows.add (h : Shows w c) (hname : r.name ≠ []) :
    Shows (w.add r) (c.pick Right.mask r) where
  text := by
    have hnames : ∀ name ∈ c.picked.map Right.name, name ≠ [] := by
      intro name hname
      obtain ⟨r, hr, rfl⟩ := List.mem_map.mp hname
      exact h.names r hr
    rw [Words.add, h.text, add_intercalate hnames, Cover.pick, List.map_append]
    rfl
  left := by rw [Words.add, h.left, Cover.pick]
  names r' hr' := by
    obtain hr' | hr' := List.mem_append.mp hr'
    · exact h.names r' hr'
    · rw [List.mem_singleton.mp hr']
      exact hname

theorem Shows.typeTurn (h : Shows w c) (hname : r.name ≠ []) :
    Shows (w.typeTurn access r) (typeTurn access c r) := by
  unfold Words.typeTurn Security.typeTurn
  rw [h.left]
  split
  · exact h.add hname
  · exact h

theorem Shows.standardTurn (h : Shows w c) (hname : r.name ≠ []) :
    Shows (w.standardTurn r) (standardTurn c r) := by
  unfold Words.standardTurn Security.standardTurn
  rw [h.left]
  split
  · exact h.add hname
  · exact h

/-- The rights of a table and the standard ones give the text of their cover. -/
theorem words_eq (hrights : ∀ r ∈ rights, r.name ≠ []) (access : UInt32) :
    words rights access = separator.intercalate (parts (cover rights access)) := by
  have hnothing : Shows { left := access } { left := access } := ⟨rfl, rfl, nofun⟩
  have htype : Shows (rights.foldl (Words.typeTurn access) { left := access })
      (rights.foldl (typeTurn access) { left := access }) :=
    List.foldl_rel hnothing fun r hr _ _ h => h.typeTurn (hrights r hr)
  have hall : Shows (standard.foldl Words.standardTurn
      (rights.foldl (Words.typeTurn access) { left := access })) (cover rights access) :=
    List.foldl_rel htype fun r hr _ _ h => h.standardTurn (plain_standard r hr).1
  have hnames : ∀ name ∈ (cover rights access).picked.map Right.name, name ≠ [] := by
    intro name hname
    obtain ⟨r, hr, rfl⟩ := List.mem_map.mp hname
    exact hall.names r hr
  unfold words parts
  dsimp only
  rw [hall.left, hall.text]
  split
  · exact add_intercalate hnames _
  · next hleft => rw [if_pos (not_not.mp hleft), List.append_nil]

end Text

theorem cover_nothing : ∀ t ∈ types, cover t.rights 0 = { left := 0 } := by decide +kernel

theorem cover_other_nothing : cover [] 0 = { left := 0 } := by decide +kernel

theorem decodeOther_eq (access : UInt32) :
    decodeOther access = separator.intercalate (parts (cover [] access)) := by
  unfold decodeOther
  split
  · next hzero =>
    rw [hzero, cover_other_nothing]
    rfl
  · exact words_eq (fun r hr => by cases hr) access

theorem parts_ne_nil {access : UInt32} {c : Cover Right} (h : Cover.Of Right.mask access c)
    (hne : access ≠ 0) : parts c ≠ [] := by
  intro hnil
  obtain ⟨hnames, hhex⟩ := List.append_eq_nil_iff.mp hnil
  have hleft : c.left = 0 := by
    by_contra hleft
    rw [if_neg hleft] at hhex
    cases hhex
  rw [Cover.Of, List.map_eq_nil_iff.mp hnames, hleft] at h
  exact hne h.symm

/-- **The text of a mask is the parts of its cover.** -/
theorem decode_eq (type : WString) (access : UInt32) :
    decode type access = separator.intercalate (parts (naming type access)) := by
  unfold decode naming
  change (if access = 0 then _ else match tableOf type with | none => _ | some t => _) = _
  cases htable : tableOf type with
  | none =>
    dsimp only
    rw [← decodeOther_eq]
    split
    · next hzero =>
      rw [hzero]
      rfl
    · rfl
  | some t =>
    have ht := (mem_types_of_tableOf htable).1
    have hnames : ∀ r ∈ t.rights, r.name ≠ [] := fun r hr =>
      (plain_types t ht r (List.mem_cons_of_mem _ (List.mem_append_left _ hr))).1
    dsimp only
    split
    · next hzero =>
      have hall : ¬(0 &&& t.allAccess = t.allAccess) := by
        rw [UInt32.zero_and]
        exact (all_ne_zero t ht).symm
      rw [hzero, if_neg hall, cover_nothing t ht]
      rfl
    · next hzero =>
      split
      · next hall =>
        split
        · next heq =>
          have hrest : access &&& ~~~t.allAccess = 0 := by rw [heq, UInt32.and_not_self]
          rw [hrest, cover_other_nothing]
          rfl
        · next hne =>
          have hrest : access &&& ~~~t.allAccess ≠ 0 := by
            intro hrest
            have hor := or_and_not_of_subMask hall
            rw [hrest, UInt32.or_zero] at hor
            exact hne hor.symm
          obtain ⟨p, ps, hparts⟩ := List.exists_cons_of_ne_nil
            (parts_ne_nil (cover_of [] (access &&& ~~~t.allAccess)) hrest)
          have hcons : parts { picked := t.all :: (cover [] (access &&& ~~~t.allAccess)).picked
                               left := (cover [] (access &&& ~~~t.allAccess)).left }
              = wide "ALL_ACCESS" :: parts (cover [] (access &&& ~~~t.allAccess)) := rfl
          rw [decodeOther_eq, hcons, hparts, List.intercalate_cons_cons]
          rfl
      · exact words_eq hnames access

/-! ## reading a text -/

theorem hexText_injective {left left' : UInt32} (h : hexText left = hexText left') :
    left = left' := by
  have hhex := hex_injective (List.append_cancel_left h)
  have htoNat := congrArg UInt64.toNat hhex
  rw [UInt32.toNat_toUInt64, UInt32.toNat_toUInt64] at htoNat
  exact UInt32.toNat_inj.mp htoNat

theorem space_notMem_hexText (left : UInt32) : 0x20 ∉ hexText left := by
  intro h
  obtain h | h := List.mem_append.mp h
  · exact absurd h (by decide)
  · obtain ⟨d, hd, hspace⟩ := mem_hexDigits h
    have hall : ∀ d < 16, (0x20 : WChar) ≠ hexDigit d := by decide
    exact hall d hd hspace

theorem parts_plain {type : WString} {access : UInt32} :
    ∀ p ∈ parts (naming type access), p ≠ [] ∧ 0x20 ∉ p := by
  intro p hp
  obtain hp | hp := List.mem_append.mp hp
  · obtain ⟨r, hr, rfl⟩ := List.mem_map.mp hp
    exact ⟨(plain_naming hr).1, (plain_naming hr).2.1⟩
  · split at hp
    · cases hp
    · cases List.mem_singleton.mp hp
      exact ⟨List.cons_ne_nil _ _, space_notMem_hexText _⟩

theorem filter_parts (type : WString) (access : UInt32) :
    ((parts (naming type access)).filter fun p => p.head? ≠ some 0x30)
        = (naming type access).picked.map Right.name ∧
      ((parts (naming type access)).filter fun p => p.head? = some 0x30)
        = if (naming type access).left = 0 then [] else [hexText (naming type access).left] := by
  have hnames : ∀ p ∈ (naming type access).picked.map Right.name, p.head? ≠ some 0x30 := by
    intro p hp
    obtain ⟨r, hr, rfl⟩ := List.mem_map.mp hp
    exact (plain_naming hr).2.2
  have hnumber : ∀ p ∈ (if (naming type access).left = 0 then []
      else [hexText (naming type access).left]), p.head? = some 0x30 := by
    intro p hp
    split at hp
    · cases hp
    · cases List.mem_singleton.mp hp
      rfl
  rw [parts, List.filter_append, List.filter_append]
  constructor
  · rw [List.filter_eq_self.mpr fun p hp => decide_eq_true (hnames p hp),
      List.filter_eq_nil_iff.mpr fun p hp => by simp [hnumber p hp], List.append_nil]
  · rw [List.filter_eq_nil_iff.mpr fun p hp => by simpa using hnames p hp,
      List.filter_eq_self.mpr fun p hp => decide_eq_true (hnumber p hp), List.nil_append]

/-- **A text shows the names of its cover and what was left.** -/
theorem of_decode_eq {type : WString} {access other : UInt32}
    (h : decode type access = decode type other) :
    (naming type access).picked.map Right.name = (naming type other).picked.map Right.name ∧
      (naming type access).left = (naming type other).left := by
  rw [decode_eq, decode_eq] at h
  have hparts : parts (naming type access) = parts (naming type other) :=
    intercalate_injective parts_plain parts_plain h
  obtain ⟨hnames, hnumber⟩ := filter_parts type access
  obtain ⟨hnames', hnumber'⟩ := filter_parts type other
  rw [hparts, hnames'] at hnames
  rw [hparts, hnumber'] at hnumber
  refine ⟨hnames.symm, ?_⟩
  split at hnumber
  · next hzero' =>
    split at hnumber
    · next hzero => rw [hzero, hzero']
    · cases hnumber
  · split at hnumber
    · cases hnumber
    · exact (hexText_injective (List.singleton_inj.mp hnumber)).symm

/-- A cover has one mask. -/
theorem eq_of_naming_eq {type : WString} {access other : UInt32}
    (hpicked : (naming type access).picked = (naming type other).picked)
    (hleft : (naming type access).left = (naming type other).left) : access = other := by
  have haccess := naming_of type access
  have hother := naming_of type other
  rw [Cover.Of, hpicked, hleft] at haccess
  exact haccess.symm.trans hother

/-! ## one name for each right -/

/-- Lists of what is told apart by a function are told apart by its values. -/
theorem eq_of_map_eq {α β : Type*} {f : α → β} {l l' as : List α}
    (hinj : ∀ a ∈ as, ∀ b ∈ as, f a = f b → a = b) (hl : l ⊆ as) (hl' : l' ⊆ as)
    (h : l.map f = l'.map f) : l = l' := by
  induction l generalizing l' with
  | nil => exact (List.map_eq_nil_iff.mp h.symm).symm
  | cons a l ih =>
    cases l' with
    | nil => cases h
    | cons b l' =>
      obtain ⟨hab, htail⟩ := List.cons.inj h
      rw [hinj a (hl List.mem_cons_self) b (hl' List.mem_cons_self) hab,
        ih (fun c hc => hl (List.mem_cons_of_mem _ hc))
          (fun c hc => hl' (List.mem_cons_of_mem _ hc)) htail]

/-- Parts of a list with one name each are told apart by their names. -/
theorem eq_of_names_eq {rights picked picked' : List Right} (hnames : (rights.map Right.name).Nodup)
    (hsub : picked.Sublist rights) (hsub' : picked'.Sublist rights)
    (h : picked.map Right.name = picked'.map Right.name) : picked = picked' :=
  eq_of_map_eq (fun _ ha _ hb hab => List.inj_on_of_nodup_map hnames ha hb hab) hsub.subset
    hsub'.subset h

theorem naming_sublist {type : WString} {t : TypeRights} (htable : tableOf type = some t)
    (access : UInt32) :
    (naming type access).picked.Sublist (t.all :: (t.rights ++ standard)) := by
  unfold naming
  rw [htable]
  dsimp only
  split
  · exact ((cover_sublist [] _).trans (List.sublist_append_right _ _)).cons_cons _
  · exact (cover_sublist t.rights access).cons _

theorem nodup_types : ∀ t ∈ types, t ≠ file →
    ((t.all :: (t.rights ++ standard)).map Right.name).Nodup := by decide +kernel

theorem nodup_standard : (standard.map Right.name).Nodup := by decide +kernel

theorem tableOf_file : tableOf (wide "File") = some file := by decide +kernel

/-- **Of all types but files the text of a mask is of no other.** -/
theorem decode_injective_of_ne {type : WString} (htype : type ≠ wide "File") {access other : UInt32}
    (h : decode type access = decode type other) : access = other := by
  obtain ⟨hnames, hleft⟩ := of_decode_eq h
  refine eq_of_naming_eq ?_ hleft
  cases htable : tableOf type with
  | none =>
    have hother : ∀ access, (naming type access).picked.Sublist standard := by
      intro access
      unfold naming
      rw [htable]
      exact cover_sublist [] access
    exact eq_of_names_eq nodup_standard (hother access) (hother other) hnames
  | some t =>
    obtain ⟨hmem, hname⟩ := mem_types_of_tableOf htable
    have hfile : t ≠ file := by
      rintro rfl
      exact htype hname.symm
    exact eq_of_names_eq (nodup_types t hmem hfile) (naming_sublist htable access)
      (naming_sublist htable other) hnames

/-! ## files -/

/-- The bits of a file's mask that have a name of their own. -/
def fileNamed : UInt32 :=
  union (((file.rights ++ standard).filter fun r => Single r.mask).map Right.mask)

/-- Named bits that have one text in two ways: a file's rights and the generic ones. -/
def alike : List (UInt32 × UInt32) :=
  [(fileGenericRead, genericRead), (fileGenericWrite, genericWrite),
    (fileGenericRead ||| fileGenericWrite, fileGenericRead ||| genericWrite),
    (fileGenericWrite ||| genericRead, genericWrite ||| genericRead),
    (fileGenericRead ||| fileGenericWrite ||| genericRead,
      fileGenericRead ||| genericWrite ||| genericRead)]

def Alike (named : UInt32) : Prop := ∃ pair ∈ alike, named = pair.1 ∨ named = pair.2

instance : DecidablePred Alike := fun _ => inferInstanceAs (Decidable (∃ _ ∈ _, _))

/-- A file's mask with no names but those that two rights share. -/
def TwoWays (access : UInt32) : Prop := Alike (access &&& fileNamed)

/-- The combinations, the rights with a name of their own, and the generic rights. -/
def combinations : List Right := file.rights.take 2

def ownNames : List Right := file.rights.drop 2 ++ standard.take 9

def generics : List Right := standard.drop 9

theorem file_split : file.rights ++ standard = combinations ++ (ownNames ++ generics) := by
  decide +kernel

theorem nodup_combinations : (combinations.map Right.name).Nodup := by decide +kernel

theorem nodup_ownNames : (ownNames.map Right.name).Nodup := by decide +kernel

theorem nodup_generics : (generics.map Right.name).Nodup := by decide +kernel

theorem ownNames_apart : ∀ r ∈ ownNames, ∀ r' ∈ combinations ++ generics, r'.name ≠ r.name := by
  decide +kernel

section Files

variable {access other : UInt32}

theorem filter_ownNames {p m q : List Right} (hp : p.Sublist combinations) (hm : m.Sublist ownNames)
    (hq : q.Sublist generics) :
    ((p ++ (m ++ q)).map Right.name).filter (· ∈ ownNames.map Right.name) = m.map Right.name := by
  have hout : ∀ r ∈ combinations ++ generics, r.name ∉ ownNames.map Right.name := by
    intro r hr hmem
    obtain ⟨r', hr', hname⟩ := List.mem_map.mp hmem
    exact ownNames_apart r' hr' r hr hname.symm
  have hempty : ∀ l : List Right, l ⊆ combinations ++ generics →
      (l.map Right.name).filter (· ∈ ownNames.map Right.name) = [] := by
    intro l hl
    refine List.filter_eq_nil_iff.mpr fun name hname => ?_
    obtain ⟨r, hr, rfl⟩ := List.mem_map.mp hname
    simpa using hout r (hl hr)
  rw [List.map_append, List.map_append, List.filter_append, List.filter_append,
    hempty p fun r hr => List.mem_append_left _ (hp.subset hr),
    hempty q fun r hr => List.mem_append_right _ (hq.subset hr), List.nil_append, List.append_nil]
  refine List.filter_eq_self.mpr fun name hname => ?_
  obtain ⟨r, hr, rfl⟩ := List.mem_map.mp hname
  exact decide_eq_true (List.mem_map_of_mem (hm.subset hr))

/-- A right with a name of its own tells which of the others come before it. -/
theorem eq_of_ownName {p m q p' m' q' : List Right} (hp : p.Sublist combinations)
    (hm : m.Sublist ownNames) (hq : q.Sublist generics) (hp' : p'.Sublist combinations)
    (hm' : m'.Sublist ownNames) (hq' : q'.Sublist generics)
    (h : (p ++ (m ++ q)).map Right.name = (p' ++ (m' ++ q')).map Right.name) :
    m = m' ∧ (m ≠ [] → p = p' ∧ q = q') := by
  have hfilter := filter_ownNames hp hm hq
  rw [h, filter_ownNames hp' hm' hq'] at hfilter
  obtain rfl := eq_of_names_eq nodup_ownNames hm' hm hfilter
  refine ⟨rfl, fun hne => ?_⟩
  obtain ⟨r, m, rfl⟩ := List.exists_cons_of_ne_nil hne
  have hr : r ∈ ownNames := hm.subset List.mem_cons_self
  have hnot : ∀ l : List Right, l.Sublist combinations → r.name ∉ l.map Right.name := by
    intro l hl hmem
    obtain ⟨r', hr', hname⟩ := List.mem_map.mp hmem
    exact ownNames_apart r hr r' (List.mem_append_left _ (hl.subset hr')) hname
  rw [List.map_append, @List.map_append _ _ _ p'] at h
  obtain ⟨hfirst, hrest⟩ := append_inj_of_notMem (hnot p hp) (hnot p' hp')
    (by rintro b ⟨⟩; rfl) (by rintro b ⟨⟩; rfl) h
  rw [List.map_append, List.map_append] at hrest
  exact ⟨eq_of_names_eq nodup_combinations hp hp' hfirst,
    eq_of_names_eq nodup_generics hq hq' (List.append_cancel_left hrest)⟩

/-- Without such a right there are the rights that share their names. -/
theorem alike_of_names : ∀ p ∈ combinations.sublists, ∀ q ∈ generics.sublists,
    ∀ p' ∈ combinations.sublists, ∀ q' ∈ generics.sublists,
      (p ++ q).map Right.name = (p' ++ q').map Right.name →
        p ++ q = p' ++ q' ∨ Alike (union ((p ++ q).map Right.mask)) := by decide +kernel

/-! ### what is left of a file's mask -/

theorem typeTurn_gone {r : Right} (hsingle : Single r.mask) {c : Cover Right}
    (hc : SubMask c.left access) : (typeTurn access c r).left &&& r.mask = 0 := by
  unfold typeTurn
  split
  · exact Cover.left_pick_and c r
  · next hfits =>
    obtain hwithin | hzero := hsingle.subMask_or access
    · exact not_not.mp fun hne => hfits ⟨hwithin, hne⟩
    · exact and_eq_zero_of_subMask hc hzero

theorem standardTurn_gone {r : Right} (hsingle : Single r.mask) (c : Cover Right) :
    (standardTurn c r).left &&& r.mask = 0 := by
  unfold standardTurn
  split
  · exact Cover.left_pick_and c r
  · next hnot => exact (hsingle.subMask_or c.left).resolve_left hnot

/-- Bits that have a name are not left for the number. -/
theorem left_and_single {rights : List Right} {r : Right} (hr : r ∈ rights ++ standard)
    (hsingle : Single r.mask) (access : UInt32) : (cover rights access).left &&& r.mask = 0 := by
  unfold cover
  obtain hr | hr := List.mem_append.mp hr
  · exact and_eq_zero_of_subMask (Cover.left_foldl_subMask standardTurn_or _ standard)
      (Cover.left_foldl_and typeTurn_or (fun _ hc => typeTurn_gone hsingle hc) hr (subMask_rfl _))
  · exact Cover.left_foldl_and standardTurn_or (fun c _ => standardTurn_gone hsingle c) hr
      (subMask_rfl _)

theorem left_and_fileNamed (access : UInt32) :
    (cover file.rights access).left &&& fileNamed = 0 := by
  refine and_union_eq_zero fun m hm => ?_
  obtain ⟨r, hr, rfl⟩ := List.mem_map.mp hm
  obtain ⟨hmem, hsingle⟩ := List.mem_filter.mp hr
  exact left_and_single hmem (of_decide_eq_true hsingle) access

theorem subMask_fileNamed : ∀ r ∈ file.rights ++ standard, SubMask r.mask fileNamed := by
  decide +kernel

theorem and_fileNamed (access : UInt32) :
    access &&& fileNamed = union ((cover file.rights access).picked.map Right.mask) := by
  have hwithin : SubMask (union ((cover file.rights access).picked.map Right.mask)) fileNamed := by
    refine union_subMask fun m hm => ?_
    obtain ⟨r, hr, rfl⟩ := List.mem_map.mp hm
    exact subMask_fileNamed r ((cover_sublist file.rights access).subset hr)
  have hof := cover_of file.rights access
  rw [Cover.Of] at hof
  nth_rewrite 1 [← hof]
  exact or_and_of_subMask hwithin (left_and_fileNamed access)

theorem naming_file (access : UInt32) :
    naming (wide "File") access =
      if access &&& fileAllAccess = fileAllAccess then
        { cover [] (access &&& ~~~fileAllAccess) with
          picked := file.all :: (cover [] (access &&& ~~~fileAllAccess)).picked }
      else cover file.rights access := by
  unfold naming
  rw [tableOf_file]
  rfl

theorem all_apart : ∀ r ∈ file.rights ++ standard, r.name ≠ file.all.name := by decide +kernel

/-- All access is told by its name. -/
theorem picked_ne_of_all (hall : access &&& fileAllAccess = fileAllAccess)
    (hnot : ¬(other &&& fileAllAccess = fileAllAccess)) :
    (naming (wide "File") access).picked.map Right.name
      ≠ (naming (wide "File") other).picked.map Right.name := by
  intro hnames
  rw [naming_file access, if_pos hall, naming_file other, if_neg hnot] at hnames
  have hmem : file.all.name ∈ (cover file.rights other).picked.map Right.name := by
    rw [← hnames]
    exact List.mem_cons_self
  obtain ⟨r, hr, hname⟩ := List.mem_map.mp hmem
  exact all_apart r ((cover_sublist file.rights other).subset hr) hname

/-- **A file's mask has a text of its own unless its names are all of those shared.** -/
theorem decode_file (h : decode (wide "File") access = decode (wide "File") other) :
    access = other ∨ TwoWays access := by
  obtain ⟨hnames, hleft⟩ := of_decode_eq h
  by_cases hall : access &&& fileAllAccess = fileAllAccess
  · by_cases hall' : other &&& fileAllAccess = fileAllAccess
    · refine .inl (eq_of_naming_eq ?_ hleft)
      rw [naming_file access, if_pos hall, naming_file other, if_pos hall'] at hnames ⊢
      have hrest := eq_of_names_eq nodup_standard (cover_sublist [] _) (cover_sublist [] _)
        (List.cons.inj hnames).2
      exact congrArg (file.all :: ·) hrest
    · exact absurd hnames (picked_ne_of_all hall hall')
  · by_cases hall' : other &&& fileAllAccess = fileAllAccess
    · exact absurd hnames.symm (picked_ne_of_all hall' hall)
    · have hpicked : (cover file.rights access).picked = (cover file.rights other).picked →
          access = other := by
        intro hpicked
        refine eq_of_naming_eq ?_ hleft
        rw [naming_file access, if_neg hall, naming_file other, if_neg hall']
        exact hpicked
      rw [naming_file access, if_neg hall, naming_file other, if_neg hall'] at hnames
      have hsub := cover_sublist file.rights access
      have hsub' := cover_sublist file.rights other
      rw [file_split] at hsub hsub'
      obtain ⟨p, mq, hsplit, hp, hmq⟩ := List.sublist_append_iff.mp hsub
      obtain ⟨m, q, rfl, hm, hq⟩ := List.sublist_append_iff.mp hmq
      obtain ⟨p', mq', hsplit', hp', hmq'⟩ := List.sublist_append_iff.mp hsub'
      obtain ⟨m', q', rfl, hm', hq'⟩ := List.sublist_append_iff.mp hmq'
      rw [hsplit, hsplit'] at hnames hpicked
      obtain ⟨rfl, hrest⟩ := eq_of_ownName hp hm hq hp' hm' hq' hnames
      cases m with
      | cons r m =>
        obtain ⟨rfl, rfl⟩ := hrest (List.cons_ne_nil _ _)
        exact .inl (hpicked rfl)
      | nil =>
        rw [List.nil_append, List.nil_append] at hnames hpicked
        obtain heq | halike := alike_of_names p (List.mem_sublists.mpr hp) q
          (List.mem_sublists.mpr hq) p' (List.mem_sublists.mpr hp') q' (List.mem_sublists.mpr hq')
          hnames
        · exact .inl (hpicked heq)
        · right
          rw [TwoWays, and_fileNamed, hsplit, List.nil_append]
          exact halike

/-! ### the other way -/

/-- Bits without a name are left as they are. -/
theorem cover_or {rights : List Right} {more : UInt32}
    (hmore : ∀ r ∈ rights ++ standard, more &&& r.mask = 0) (access : UInt32) :
    cover rights (access ||| more)
      = ⟨(cover rights access).picked, (cover rights access).left ||| more⟩ := by
  have htype : rights.foldl (typeTurn (access ||| more)) { left := access ||| more }
      = ⟨(rights.foldl (typeTurn access) { left := access }).picked,
          (rights.foldl (typeTurn access) { left := access }).left ||| more⟩ := by
    refine List.foldl_rel (r := fun c' c : Cover Right => c' = ⟨c.picked, c.left ||| more⟩) rfl ?_
    rintro r hr _ c rfl
    have hzero := hmore r (List.mem_append_left _ hr)
    have hfits : r.Fits (access ||| more) (c.left ||| more) ↔ r.Fits access c.left := by
      unfold Right.Fits
      rw [or_and_of_and_eq_zero hzero, or_and_of_and_eq_zero hzero]
    unfold typeTurn
    by_cases hr : r.Fits access c.left
    · rw [if_pos hr, if_pos (hfits.mpr hr), Cover.pick, or_and_not_of_and_eq_zero hzero]
      rfl
    · rw [if_neg hr, if_neg (hfits.not.mpr hr)]
  unfold cover
  rw [htype]
  refine List.foldl_rel (r := fun c' c : Cover Right => c' = ⟨c.picked, c.left ||| more⟩) rfl ?_
  rintro r hr _ c rfl
  have hzero := hmore r (List.mem_append_right _ hr)
  unfold standardTurn
  rw [or_and_of_and_eq_zero hzero]
  split
  · rw [Cover.pick, or_and_not_of_and_eq_zero hzero]
    rfl
  · rfl

/-- The names of both are the same and nothing is left of them. -/
structure Pair (x y : UInt32) : Prop where
  ne : x ≠ y
  within : SubMask x fileNamed ∧ SubMask y fileNamed
  notAll : x &&& fileAllAccess ≠ fileAllAccess ∧ y &&& fileAllAccess ≠ fileAllAccess
  names : (cover file.rights x).picked.map Right.name = (cover file.rights y).picked.map Right.name
  left : (cover file.rights x).left = 0 ∧ (cover file.rights y).left = 0

theorem pair_of_mem : ∀ pair ∈ alike, Pair pair.1 pair.2 := by
  have hall : ∀ pair ∈ alike, pair.1 ≠ pair.2 ∧
      (SubMask pair.1 fileNamed ∧ SubMask pair.2 fileNamed) ∧
      (pair.1 &&& fileAllAccess ≠ fileAllAccess ∧ pair.2 &&& fileAllAccess ≠ fileAllAccess) ∧
      (cover file.rights pair.1).picked.map Right.name
        = (cover file.rights pair.2).picked.map Right.name ∧
      ((cover file.rights pair.1).left = 0 ∧ (cover file.rights pair.2).left = 0) := by
    decide +kernel
  intro pair hpair
  obtain ⟨hne, hwithin, hnotAll, hnames, hleft⟩ := hall pair hpair
  exact ⟨hne, hwithin, hnotAll, hnames, hleft⟩

theorem Pair.symm {x y : UInt32} (h : Pair x y) : Pair y x :=
  ⟨h.ne.symm, h.within.symm, h.notAll.symm, h.names.symm, h.left.symm⟩

theorem subMask_all : SubMask fileAllAccess fileNamed := by decide +kernel

/-- With the same bits without a name they have one text. -/
theorem Pair.decode_eq {x y : UInt32} (h : Pair x y) {more : UInt32}
    (hmore : more &&& fileNamed = 0) :
    decode (wide "File") (x ||| more) = decode (wide "File") (y ||| more) := by
  have hrights : ∀ r ∈ file.rights ++ standard, more &&& r.mask = 0 := by
    intro r hr
    rw [UInt32.and_comm]
    exact and_eq_zero_of_subMask (subMask_fileNamed r hr) ((UInt32.and_comm _ _).trans hmore)
  have hall : more &&& fileAllAccess = 0 := by
    rw [UInt32.and_comm]
    exact and_eq_zero_of_subMask subMask_all ((UInt32.and_comm _ _).trans hmore)
  have hx : ¬((x ||| more) &&& fileAllAccess = fileAllAccess) := by
    rw [or_and_of_and_eq_zero hall]
    exact h.notAll.1
  have hy : ¬((y ||| more) &&& fileAllAccess = fileAllAccess) := by
    rw [or_and_of_and_eq_zero hall]
    exact h.notAll.2
  rw [Security.decode_eq, Security.decode_eq, naming_file, if_neg hx, naming_file, if_neg hy,
    cover_or hrights, cover_or hrights, parts, parts]
  dsimp only
  rw [h.names, h.left.1, h.left.2]

/-- **A mask with shared names only has the text of another.** -/
theorem exists_decode_eq (h : TwoWays access) :
    ∃ other, other ≠ access ∧ decode (wide "File") other = decode (wide "File") access := by
  have hpair : ∃ y, Pair (access &&& fileNamed) y := by
    obtain ⟨pair, hmem, hfirst | hsecond⟩ := h
    · exact ⟨pair.2, hfirst ▸ pair_of_mem pair hmem⟩
    · exact ⟨pair.1, hsecond ▸ (pair_of_mem pair hmem).symm⟩
  obtain ⟨y, hy⟩ := hpair
  have hmore : (access &&& ~~~fileNamed) &&& fileNamed = 0 := by
    rw [UInt32.and_assoc, UInt32.not_and_self, UInt32.and_zero]
  refine ⟨y ||| (access &&& ~~~fileNamed), fun heq => ?_, ?_⟩
  · have hnamed := congrArg (· &&& fileNamed) heq
    rw [or_and_of_subMask hy.within.2 hmore] at hnamed
    exact hy.ne hnamed.symm
  · rw [← hy.decode_eq hmore, and_or_and_not]

end Files

/-- **A text of a mask is of no other, except for a file's mask with no names but shared ones; the
rights named and the number make up the mask, and each right is within it.** -/
theorem decode_injective_iff (type : WString) (access : UInt32) :
    ((∀ other, decode type other = decode type access → other = access) ↔
        ¬(type = wide "File" ∧ TwoWays access)) ∧
      decode type access = separator.intercalate (parts (naming type access)) ∧
      union ((naming type access).picked.map Right.mask) ||| (naming type access).left = access ∧
      ∀ r ∈ (naming type access).picked, SubMask r.mask access := by
  have hof := naming_of type access
  refine ⟨⟨?_, ?_⟩, decode_eq type access, hof, fun r hr => hof.within hr⟩
  · rintro hown ⟨rfl, htwo⟩
    obtain ⟨other, hne, heq⟩ := exists_decode_eq htwo
    exact hne (hown other heq)
  · intro hnot other heq
    by_cases htype : type = wide "File"
    · subst htype
      obtain heq | htwo := decode_file heq.symm
      · exact heq.symm
      · exact absurd ⟨rfl, htwo⟩ hnot
    · exact decode_injective_of_ne htype heq

/-- Reading a file's data and attributes, and reading of any kind. -/
theorem decode_genericRead :
    decode (wide "File") fileGenericRead = wide "GENERIC_READ" ∧
      decode (wide "File") genericRead = wide "GENERIC_READ" ∧ fileGenericRead ≠ genericRead := by
  decide +kernel

end WinSys.Security
