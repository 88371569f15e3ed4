import Mathlib

/-!
# Radix trees in a store of tables

A tree of tables indexed by the digits of a key, as multi-level page tables are.
An entry of a table is absent, a leaf, or a pointer to a table one level down;
a leaf above the last level answers for every key below it. A pointer carries a
function that is applied to every answer found below it.

A table is named by the type `ν` of addresses, so two entries may point to one
table. `Unshared` excludes that, and under it writing one entry changes the
lookups below that entry only.

* `lookup_append`: a lookup below a table reached by a path.
* `descend_congr`, `lookup_congr`: a lookup depends only on the entries it passes.
* `descend_update`, `lookup_update`: writing an entry changes only what is below
  it.
* `attach_lookup`, `attach_descend`, `attach_unshared`: an entry that is no
  pointer is replaced by a pointer to a fresh table.
* `setLast_descend`, `setLast_unshared`: an entry of the last level is replaced.
-/

namespace HorizonOS.Lib.Radix

variable {ν κ β : Type}

/-- The meaning of an entry. A leaf gives the answer for the digits that are left. -/
inductive Slot (ν κ β : Type)
  | absent
  | leaf (f : List κ → Option β)
  | table (t : ν) (g : β → β)

namespace Slot

def IsTable : Slot ν κ β → Prop
  | .table _ _ => True
  | _ => False

end Slot

/-- `T l t i` is entry `i` of the table `t`, with `l` levels below it. -/
abbrev Tree (ν κ β : Type) := ℕ → ν → κ → Slot ν κ β

/-- The answer for a key, from the table `t` down. -/
def lookup (T : Tree ν κ β) : ν → List κ → Option β
  | _, [] => none
  | t, i :: w =>
    match T w.length t i with
    | .absent => none
    | .leaf f => f w
    | .table t' g => (lookup T t' w).map g

/-- The answer of one entry for the digits that are left. -/
def Slot.value (T : Tree ν κ β) : Slot ν κ β → List κ → Option β
  | .absent, _ => none
  | .leaf f, w => f w
  | .table t g, w => (lookup T t w).map g

/-- Follow pointers from the table `t`, which has `l` levels: the table reached and
    what is applied to the answers below it. -/
def descend (T : Tree ν κ β) : (l : ℕ) → ν → List κ → Option (ν × (β → β))
  | _, t, [] => some (t, id)
  | 0, _, _ :: _ => none
  | l + 1, t, i :: p =>
    match T l t i with
    | .table t' g => (descend T l t' p).map fun x => (x.1, g ∘ x.2)
    | _ => none

/-- The path `p` leads from `root` to the table `t`. -/
def Reaches (T : Tree ν κ β) (l : ℕ) (root : ν) (p : List κ) (t : ν) : Prop :=
  ∃ g, descend T l root p = some (t, g)

/-- No table is reached by two paths. -/
def Unshared (T : Tree ν κ β) (l : ℕ) (root : ν) : Prop :=
  ∀ p q t, Reaches T l root p t → Reaches T l root q t → p = q

section Basic

variable {T : Tree ν κ β} {l : ℕ} {root t n : ν} {p q w : List κ} {i : κ} {g h : β → β}

theorem lookup_cons : lookup T t (i :: w) = (T w.length t i).value T w := by
  rw [lookup]
  cases T w.length t i <;> rfl

@[simp] theorem descend_nil : descend T l t [] = some (t, id) := by
  cases l <;> rfl

theorem reaches_nil : Reaches T l root [] root := ⟨id, descend_nil⟩

theorem descend_cons_of_table (hT : T l t i = .table n g) :
    descend T (l + 1) t (i :: p) = (descend T l n p).map fun x => (x.1, g ∘ x.2) := by
  rw [descend, hT]

theorem descend_cons_of_not_table (hT : ¬ (T l t i).IsTable) :
    descend T (l + 1) t (i :: p) = none := by
  rw [descend]
  cases hs : T l t i with
  | absent => rfl
  | leaf f => rfl
  | table n g => exact absurd (by rw [hs]; trivial) hT

theorem exists_of_descend_cons (hd : descend T (l + 1) t (i :: p) = some (n, h)) :
    ∃ r gr gx, T l t i = .table r gr ∧ descend T l r p = some (n, gx) ∧ h = gr ∘ gx := by
  rw [descend] at hd
  cases hs : T l t i with
  | absent => simp [hs] at hd
  | leaf f => simp [hs] at hd
  | table r gr =>
    simp only [hs, Option.map_eq_some_iff, Prod.mk.injEq] at hd
    obtain ⟨⟨x, gx⟩, hx, rfl, rfl⟩ := hd
    exact ⟨r, gr, gx, rfl, hx, rfl⟩

theorem length_le_of_reaches (hr : Reaches T l t p n) : p.length ≤ l := by
  obtain ⟨g, hg⟩ := hr
  induction p generalizing l t g with
  | nil => simp
  | cons i p ih =>
    cases l with
    | zero => simp [descend] at hg
    | succ l =>
      obtain ⟨r, -, gx, -, hx, -⟩ := exists_of_descend_cons hg
      have := ih gx hx
      simp only [List.length_cons]
      omega

/-- Descending one more level. -/
theorem descend_snoc (hp : descend T (p.length + (l + 1)) root p = some (t, h))
    (hT : T l t i = .table n g) :
    descend T (p.length + (l + 1)) root (p ++ [i]) = some (n, h ∘ g) := by
  induction p generalizing root h with
  | nil =>
    simp only [descend_nil, Option.some.injEq, Prod.mk.injEq] at hp
    obtain ⟨rfl, rfl⟩ := hp
    simp only [List.length_nil, List.nil_append, Nat.zero_add]
    rw [descend_cons_of_table hT]
    simp
  | cons j p ih =>
    rw [List.length_cons, show p.length + 1 + (l + 1) = p.length + (l + 1) + 1 by omega] at hp ⊢
    obtain ⟨r, gr, gx, hs, hx, rfl⟩ := exists_of_descend_cons hp
    rw [List.cons_append, descend_cons_of_table hs, ih hx]
    rfl

/-- Below an entry that is no pointer nothing is reached. -/
theorem descend_below_not_table (hp : descend T (p.length + (l + 1)) root p = some (t, h))
    (hT : ¬ (T l t i).IsTable) :
    descend T (p.length + (l + 1)) root (p ++ i :: q) = none := by
  induction p generalizing root h with
  | nil =>
    simp only [descend_nil, Option.some.injEq, Prod.mk.injEq] at hp
    obtain ⟨rfl, rfl⟩ := hp
    simp only [List.length_nil, List.nil_append, Nat.zero_add]
    exact descend_cons_of_not_table hT
  | cons j p ih =>
    rw [List.length_cons, show p.length + 1 + (l + 1) = p.length + (l + 1) + 1 by omega] at hp ⊢
    obtain ⟨r, gr, gx, hs, hx, rfl⟩ := exists_of_descend_cons hp
    rw [List.cons_append, descend_cons_of_table hs, ih hx]
    rfl

/-- A lookup whose key starts with a path goes on from the table the path leads to. -/
theorem lookup_append (hp : descend T (p.length + w.length) t p = some (n, h)) :
    lookup T t (p ++ w) = (lookup T n w).map h := by
  induction p generalizing t h with
  | nil =>
    simp only [descend_nil, Option.some.injEq, Prod.mk.injEq] at hp
    obtain ⟨rfl, rfl⟩ := hp
    simp
  | cons j p ih =>
    rw [List.length_cons, show p.length + 1 + w.length = p.length + w.length + 1 by omega] at hp
    obtain ⟨r, gr, gx, hs, hx, rfl⟩ := exists_of_descend_cons hp
    rw [List.cons_append, lookup_cons, List.length_append, hs]
    simp only [Slot.value]
    rw [ih hx, Option.map_map]

end Basic

/-! ## Trees that agree along a path -/

section Congr

variable {T T' : Tree ν κ β} {l : ℕ} {root : ν} {w : List κ}

/-- `T'` agrees with `T` on the entries that the key `w` passes. -/
def AgreeOn (T T' : Tree ν κ β) (l : ℕ) (root : ν) (w : List κ) : Prop :=
  ∀ q j q' t, q ++ j :: q' = w → Reaches T l root q t → ∀ m, T' m t j = T m t j

theorem descend_congr (hT : AgreeOn T T' l root w) : descend T' l root w = descend T l root w := by
  -- from any table on the way, for what is left of the path
  suffices hgen : ∀ (q' q₀ : List κ) (t : ν) (g₀ : β → β) (m : ℕ), q₀.length + m = l →
      descend T l root q₀ = some (t, g₀) → q₀ ++ q' = w →
      descend T' m t q' = descend T m t q' from
    hgen w [] root id l (by simp) descend_nil rfl
  intro q'
  induction q' with
  | nil => intro q₀ t g₀ m _ _ _; simp
  | cons j q' ih =>
    intro q₀ t g₀ m hm hd hw
    cases m with
    | zero => rfl
    | succ m =>
      have hsame := hT q₀ j q' t hw ⟨g₀, hd⟩ m
      cases hs : T m t j with
      | absent => simp only [descend, hsame, hs]
      | leaf f => simp only [descend, hsame, hs]
      | table r gr =>
        rw [descend_cons_of_table hs, descend_cons_of_table (hsame.trans hs)]
        subst hm
        rw [ih (q₀ ++ [j]) r (g₀ ∘ gr) m (by simp; omega) (descend_snoc hd hs) (by simpa using hw)]

theorem lookup_congr (hl : w.length = l) (hT : AgreeOn T T' l root w) :
    lookup T' root w = lookup T root w := by
  suffices hgen : ∀ (w' q₀ : List κ) (t : ν) (g₀ : β → β), q₀.length + w'.length = l →
      descend T l root q₀ = some (t, g₀) → q₀ ++ w' = w →
      lookup T' t w' = lookup T t w' from
    hgen w [] root id (by simpa using hl) descend_nil rfl
  intro w'
  induction w' with
  | nil => intro q₀ t g₀ _ _ _; rfl
  | cons j w' ih =>
    intro q₀ t g₀ hm hd hw
    rw [lookup_cons, lookup_cons, hT q₀ j w' t hw ⟨g₀, hd⟩ w'.length]
    cases hs : T w'.length t j with
    | absent => rfl
    | leaf f => rfl
    | table r gr =>
      simp only [Slot.value]
      simp only [List.length_cons] at hm
      subst hm
      rw [ih (q₀ ++ [j]) r (g₀ ∘ gr) (by simp; omega) (descend_snoc hd hs) (by simpa using hw)]

end Congr

/-! ## Writing an entry -/

section Update

variable {T T' : Tree ν κ β} {l k : ℕ} {root n f : ν} {p q w : List κ} {i : κ} {h g : β → β}

/-- `T'` agrees with `T` except in entry `i` of the table `n`, and in the tables of
    `F`, which `T` does not reach. -/
structure Updated (T T' : Tree ν κ β) (l : ℕ) (root : ν) (F : Set ν) (n : ν) (i : κ) : Prop where
  same : ∀ l t j, t ∉ F → (t ≠ n ∨ j ≠ i) → T' l t j = T l t j
  fresh : ∀ p t, Reaches T l root p t → t ∉ F

/-- The entries on a path that does not go through the written entry are as before. -/
theorem Updated.agreeOn {F : Set ν} (hu : Updated T T' l root F n i) (hs : Unshared T l root)
    (hp : Reaches T l root p n) (hnot : ¬ p ++ [i] <+: w) : AgreeOn T T' l root w := by
  intro q j q' t hw hq m
  refine hu.same m t j (hu.fresh q t hq) ?_
  by_contra hc
  push Not at hc
  obtain ⟨rfl, rfl⟩ := hc
  obtain rfl := hs p q t hp hq
  exact hnot ⟨q', by simpa using hw⟩

theorem descend_update {F : Set ν} (hu : Updated T T' l root F n i) (hs : Unshared T l root)
    (hp : Reaches T l root p n) (hnot : ¬ p ++ [i] <+: q) :
    descend T' l root q = descend T l root q :=
  descend_congr (hu.agreeOn hs hp hnot)

theorem lookup_update {F : Set ν} (hu : Updated T T' l root F n i) (hs : Unshared T l root)
    (hp : Reaches T l root p n) (hw : w.length = l) (hnot : ¬ p ++ [i] <+: w) :
    lookup T' root w = lookup T root w :=
  lookup_congr hw (hu.agreeOn hs hp hnot)

theorem not_prefix_self : ¬ p ++ [i] <+: p := fun hpre => by
  have := hpre.length_le
  simp at this

/-! ## Replacing a non-pointer by a pointer to a fresh table -/

/-- `T'` is `T` with entry `i` of the table `n`, which is no pointer, made a pointer
    to the table `f`, which was not in the tree and holds no pointer. -/
structure Attached (T T' : Tree ν κ β) (k : ℕ) (root : ν) (p : List κ) (n f : ν) (i : κ)
    (h g : β → β) : Prop where
  updated : Updated T T' (p.length + (k + 1)) root {f} n i
  path : descend T (p.length + (k + 1)) root p = some (n, h)
  old : ¬ (T k n i).IsTable
  new : T' k n i = .table f g
  inner : ∀ l j, l + 1 = k → ¬ (T' l f j).IsTable

theorem Attached.descend_path (ha : Attached T T' k root p n f i h g)
    (hs : Unshared T (p.length + (k + 1)) root) :
    descend T' (p.length + (k + 1)) root p = some (n, h) := by
  rw [descend_update ha.updated hs ⟨h, ha.path⟩ not_prefix_self, ha.path]

/-- The tables of the new tree are those of the old one and the fresh one. -/
theorem attach_descend [DecidableEq κ] (ha : Attached T T' k root p n f i h g)
    (hs : Unshared T (p.length + (k + 1)) root) (q : List κ) :
    descend T' (p.length + (k + 1)) root q =
      if q = p ++ [i] then some (f, h ∘ g) else descend T (p.length + (k + 1)) root q := by
  have hnew := descend_snoc (ha.descend_path hs) ha.new
  by_cases hq : q = p ++ [i]
  · rw [if_pos hq, hq, hnew]
  rw [if_neg hq]
  by_cases hpre : p ++ [i] <+: q
  · -- beyond the fresh table there is nothing, neither before nor after
    obtain ⟨r, rfl⟩ := hpre
    cases r with
    | nil => exact absurd (by simp) hq
    | cons j r =>
      rw [List.append_assoc, List.singleton_append, descend_below_not_table ha.path ha.old]
      cases k with
      | zero =>
        rw [Option.eq_none_iff_forall_ne_some]
        intro x hx
        have := length_le_of_reaches ⟨x.2, hx⟩
        simp at this
      | succ k =>
        rw [← List.singleton_append, ← List.append_assoc]
        have hlen : p.length + (k + 1 + 1) = (p ++ [i]).length + (k + 1) := by simp; omega
        rw [hlen] at hnew ⊢
        exact descend_below_not_table hnew (ha.inner k j rfl)
  · exact descend_update ha.updated hs ⟨h, ha.path⟩ hpre

theorem attach_unshared [DecidableEq κ] (ha : Attached T T' k root p n f i h g)
    (hs : Unshared T (p.length + (k + 1)) root) : Unshared T' (p.length + (k + 1)) root := by
  rintro q q' t ⟨x, hx⟩ ⟨y, hy⟩
  rw [attach_descend ha hs] at hx hy
  have hf := ha.updated.fresh
  split_ifs at hx hy with h1 h2 h2
  · rw [h1, h2]
  · obtain ⟨rfl, -⟩ : f = t ∧ _ := by simpa using hx
    exact absurd rfl (hf q' f ⟨y, hy⟩)
  · obtain ⟨rfl, -⟩ : f = t ∧ _ := by simpa using hy
    exact absurd rfl (hf q f ⟨x, hx⟩)
  · exact hs q q' t ⟨x, hx⟩ ⟨y, hy⟩

/-- When the fresh table answers as the entry it replaces did, every lookup answers
    as before. -/
theorem attach_lookup (ha : Attached T T' k root p n f i h g)
    (hs : Unshared T (p.length + (k + 1)) root)
    (hval : ∀ w, w.length = k → (lookup T' f w).map g = (T k n i).value T w)
    (hw : w.length = p.length + (k + 1)) : lookup T' root w = lookup T root w := by
  by_cases hpre : p ++ [i] <+: w
  · obtain ⟨r, rfl⟩ := hpre
    have hr : r.length = k := by simp at hw; omega
    have hlen : p.length + (i :: r).length = p.length + (k + 1) := by simp [hr]
    rw [List.append_assoc, List.singleton_append]
    rw [lookup_append (h := h) (n := n) (by rw [hlen]; exact ha.descend_path hs),
      lookup_append (h := h) (n := n) (by rw [hlen]; exact ha.path), lookup_cons, lookup_cons, hr,
      ha.new, ← hval r hr]
    rfl
  · exact lookup_update ha.updated hs ⟨h, ha.path⟩ hw hpre

/-! ## Replacing an entry of the last level -/

/-- `T'` is `T` with entry `i` of the table `n` of the last level changed. -/
structure SetLast (T T' : Tree ν κ β) (root : ν) (p : List κ) (n : ν) (i : κ) (h : β → β) :
    Prop where
  updated : Updated T T' (p.length + 1) root ∅ n i
  path : descend T (p.length + 1) root p = some (n, h)
  old : ¬ (T 0 n i).IsTable
  new : ¬ (T' 0 n i).IsTable

theorem SetLast.descend_path (hl : SetLast T T' root p n i h)
    (hs : Unshared T (p.length + 1) root) : descend T' (p.length + 1) root p = some (n, h) := by
  rw [descend_update hl.updated hs ⟨h, hl.path⟩ not_prefix_self, hl.path]

theorem setLast_descend (hl : SetLast T T' root p n i h) (hs : Unshared T (p.length + 1) root)
    (q : List κ) : descend T' (p.length + 1) root q = descend T (p.length + 1) root q := by
  by_cases hpre : p ++ [i] <+: q
  · obtain ⟨r, rfl⟩ := hpre
    rw [List.append_assoc, List.singleton_append,
      descend_below_not_table (l := 0) (hl.descend_path hs) hl.new,
      descend_below_not_table (l := 0) hl.path hl.old]
  · exact descend_update hl.updated hs ⟨h, hl.path⟩ hpre

theorem setLast_unshared (hl : SetLast T T' root p n i h) (hs : Unshared T (p.length + 1) root) :
    Unshared T' (p.length + 1) root := by
  rintro q q' t ⟨x, hx⟩ ⟨y, hy⟩
  rw [setLast_descend hl hs] at hx hy
  exact hs q q' t ⟨x, hx⟩ ⟨y, hy⟩

theorem setLast_lookup_self (hl : SetLast T T' root p n i h) (hs : Unshared T (p.length + 1) root) :
    lookup T' root (p ++ [i]) = ((T' 0 n i).value T' []).map h := by
  rw [lookup_append (w := [i]) (hl.descend_path hs), lookup_cons]
  rfl

theorem setLast_lookup_of_ne (hl : SetLast T T' root p n i h) (hs : Unshared T (p.length + 1) root)
    (hw : w.length = p.length + 1) (hne : w ≠ p ++ [i]) : lookup T' root w = lookup T root w := by
  refine lookup_update hl.updated hs ⟨h, hl.path⟩ hw fun hpre => hne ?_
  exact (hpre.eq_of_length (by simp [hw])).symm

end Update

end HorizonOS.Lib.Radix
