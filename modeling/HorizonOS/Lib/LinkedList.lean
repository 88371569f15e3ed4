import Mathlib

/-!
# Circular doubly linked lists

Lists threaded through their nodes: every node has a successor and a predecessor, and a list is
the ring through its head.

* `IsList`: the ring of a head holds the given nodes in order.
* `Queues`: a family of disjoint rings. `Queues.addTail` and `Queues.delFirst` say what insertion
  at the tail and removal of the first node do to the whole family.
-/

namespace HorizonOS.Lib.LinkedList

variable {ν ι : Type*} [DecidableEq ν] [DecidableEq ι]

/-- The pointers of all nodes. -/
structure Links (ν : Type*) where
  next : ν → ν
  prev : ν → ν

namespace Links

def setNext (l : Links ν) (a b : ν) : Links ν := { l with next := Function.update l.next a b }

def setPrev (l : Links ν) (a b : ν) : Links ν := { l with prev := Function.update l.prev a b }

/-- The head of an empty list points to itself. -/
def init (l : Links ν) (h : ν) : Links ν := (l.setNext h h).setPrev h h

/-- `n` is linked in between `p` and its successor `s`. -/
def insert (l : Links ν) (n p s : ν) : Links ν :=
  (((l.setPrev s n).setNext n s).setPrev n p).setNext p n

def addTail (l : Links ν) (n h : ν) : Links ν := l.insert n (l.prev h) h

/-- `p` and `s` are made neighbours. -/
def unlink (l : Links ν) (p s : ν) : Links ν := (l.setPrev s p).setNext p s

/-- `e` is taken out of its list and left as an empty list of its own. -/
def delInit (l : Links ν) (e : ν) : Links ν :=
  ((l.unlink (l.prev e) (l.next e)).setPrev e e).setNext e e

def isEmpty (l : Links ν) (h : ν) : Bool := l.next h = h ∧ l.next h = l.prev h

end Links

/-- From `a` the nodes `xs` follow in order, and then `b`. -/
def Seg (l : Links ν) (a : ν) : List ν → ν → Prop
  | [], b => l.next a = b ∧ l.prev b = a
  | x :: xs, b => (l.next a = x ∧ l.prev x = a) ∧ Seg l x xs b

structure IsList (l : Links ν) (h : ν) (xs : List ν) : Prop where
  ring : Seg l h xs h
  nodup : (h :: xs).Nodup

section Seg

omit [DecidableEq ν]

variable {l l' : Links ν} {a b x y : ν} {xs ys : List ν}

theorem Seg.congr (h : Seg l a xs b) (hnext : ∀ x ∈ a :: xs, l'.next x = l.next x)
    (hprev : ∀ x ∈ b :: xs, l'.prev x = l.prev x) : Seg l' a xs b := by
  induction xs generalizing a with
  | nil =>
    obtain ⟨h1, h2⟩ := h
    exact ⟨(hnext a List.mem_cons_self).trans h1, (hprev b List.mem_cons_self).trans h2⟩
  | cons x xs ih =>
    obtain ⟨⟨h1, h2⟩, hrest⟩ := h
    refine ⟨⟨(hnext a List.mem_cons_self).trans h1, (hprev x (by simp)).trans h2⟩, ?_⟩
    refine ih hrest (fun y hy => hnext y (List.mem_cons_of_mem _ hy)) (fun y hy => hprev y ?_)
    rcases List.mem_cons.mp hy with rfl | hy
    · exact List.mem_cons_self
    · exact List.mem_cons_of_mem _ (List.mem_cons_of_mem _ hy)

theorem seg_append : Seg l a (xs ++ y :: ys) b ↔ Seg l a xs y ∧ Seg l y ys b := by
  induction xs generalizing a with
  | nil => exact Iff.rfl
  | cons x xs ih =>
    show _ ∧ Seg l x (xs ++ y :: ys) b ↔ (_ ∧ Seg l x xs y) ∧ Seg l y ys b
    rw [ih]
    exact and_assoc.symm

/-- The predecessor of the end is the last node before it. -/
theorem Seg.prev_mem (h : Seg l a xs b) : l.prev b ∈ a :: xs := by
  induction xs generalizing a with
  | nil =>
    rw [h.2]
    exact List.mem_cons_self
  | cons x xs ih => exact List.mem_cons_of_mem _ (ih h.2)

/-- The links of a segment other than the one into its end. -/
theorem Seg.retarget (h : Seg l a xs b) (hnodup : (a :: xs).Nodup)
    (hnext : ∀ x ∈ a :: xs, x ≠ l.prev b → l'.next x = l.next x)
    (hprev : ∀ x ∈ xs, l'.prev x = l.prev x) {c : ν} (hlast : l'.next (l.prev b) = c)
    (hc : l'.prev c = l.prev b) : Seg l' a xs c := by
  induction xs generalizing a with
  | nil =>
    have hb : l.prev b = a := h.2
    rw [hb] at hlast hc
    exact ⟨hlast, hc⟩
  | cons x xs ih =>
    obtain ⟨⟨h1, h2⟩, hrest⟩ := h
    have hmem : l.prev b ∈ x :: xs := hrest.prev_mem
    have hne : a ≠ l.prev b := fun he => (List.nodup_cons.mp hnodup).1 (he ▸ hmem)
    refine ⟨⟨(hnext a List.mem_cons_self hne).trans h1, (hprev x List.mem_cons_self).trans h2⟩, ?_⟩
    exact ih hrest (List.nodup_cons.mp hnodup).2
      (fun y hy => hnext y (List.mem_cons_of_mem _ hy))
      (fun y hy => hprev y (List.mem_cons_of_mem _ hy))

end Seg

section IsList

variable {l : Links ν} {h n x : ν} {xs : List ν}

theorem isList_init (l : Links ν) (h : ν) : IsList (l.init h) h [] := by
  refine ⟨⟨?_, Function.update_self _ _ _⟩, List.nodup_singleton h⟩
  exact Function.update_self _ _ _

theorem IsList.isEmpty_iff (hl : IsList l h xs) : l.isEmpty h = true ↔ xs = [] := by
  unfold Links.isEmpty
  rw [decide_eq_true_iff]
  constructor
  · rintro ⟨hnext, -⟩
    cases xs with
    | nil => rfl
    | cons x xs =>
      obtain ⟨⟨h1, -⟩, -⟩ := hl.ring
      exact absurd (List.mem_cons.mpr (.inl (hnext.symm.trans h1))) (List.nodup_cons.mp hl.nodup).1
  · rintro rfl
    obtain ⟨h1, h2⟩ := hl.ring
    exact ⟨h1, h1.trans h2.symm⟩

omit [DecidableEq ν] in
theorem IsList.next_head (hl : IsList l h (x :: xs)) : l.next h = x := hl.ring.1.1

/-- Only the head, its predecessor and the new node change. -/
theorem addTail_next (l : Links ν) (n h y : ν) :
    (l.addTail n h).next y = if y = l.prev h then n else if y = n then h else l.next y := by
  unfold Links.addTail Links.insert Links.setNext Links.setPrev
  simp only [Function.update_apply]

theorem addTail_prev (l : Links ν) (n h y : ν) :
    (l.addTail n h).prev y = if y = n then l.prev h else if y = h then n else l.prev y := by
  unfold Links.addTail Links.insert Links.setNext Links.setPrev
  simp only [Function.update_apply]

theorem IsList.addTail (hl : IsList l h xs) (hn : n ∉ h :: xs) :
    IsList (l.addTail n h) h (xs ++ [n]) := by
  have hlast : l.prev h ∈ h :: xs := hl.ring.prev_mem
  have hnh : n ≠ h := fun he => hn (he ▸ List.mem_cons_self)
  have hnlast : n ≠ l.prev h := fun he => hn (he ▸ hlast)
  refine ⟨seg_append.mpr ⟨?_, ?_, ?_⟩, ?_⟩
  · refine hl.ring.retarget hl.nodup ?_ ?_ ?_ ?_
    · intro x hx hne
      have hxn : x ≠ n := fun he => hn (he ▸ hx)
      rw [addTail_next, if_neg hne, if_neg hxn]
    · intro x hx
      have hxh : x ≠ h := fun he => (List.nodup_cons.mp hl.nodup).1 (he ▸ hx)
      have hxn : x ≠ n := fun he => hn (he ▸ List.mem_cons_of_mem _ hx)
      rw [addTail_prev, if_neg hxn, if_neg hxh]
    · rw [addTail_next, if_pos rfl]
    · rw [addTail_prev, if_pos rfl]
  · rw [addTail_next, if_neg hnlast, if_pos rfl]
  · rw [addTail_prev, if_neg hnh.symm, if_pos rfl]
  · have hcons : h :: (xs ++ [n]) = (h :: xs) ++ [n] := rfl
    rw [hcons, List.nodup_append]
    refine ⟨hl.nodup, List.nodup_singleton n, ?_⟩
    intro x hx y hy he
    rw [List.mem_singleton.mp hy] at he
    exact hn (he ▸ hx)

theorem delInit_next (l : Links ν) (e y : ν) :
    (l.delInit e).next y =
      if y = e then e else if y = l.prev e then l.next e else l.next y := by
  unfold Links.delInit Links.unlink Links.setNext Links.setPrev
  simp only [Function.update_apply]

theorem delInit_prev (l : Links ν) (e y : ν) :
    (l.delInit e).prev y =
      if y = e then e else if y = l.next e then l.prev e else l.prev y := by
  unfold Links.delInit Links.unlink Links.setNext Links.setPrev
  simp only [Function.update_apply]

omit [DecidableEq ν] in
/-- The successor of a node of a segment is a later node of it, or its end. -/
theorem Seg.next_mem {a b : ν} (hs : Seg l a xs b) : l.next a ∈ b :: xs := by
  cases xs with
  | nil =>
    rw [hs.1]
    exact List.mem_cons_self
  | cons x xs =>
    rw [hs.1.1]
    exact List.mem_cons_of_mem _ List.mem_cons_self

theorem IsList.delFirst (hl : IsList l h (x :: xs)) : IsList (l.delInit x) h xs := by
  obtain ⟨⟨h1, h2⟩, hrest⟩ := hl.ring
  obtain ⟨hh, hx⟩ := List.nodup_cons.mp hl.nodup
  have hhx : h ≠ x := fun he => hh (he ▸ List.mem_cons_self)
  have hxs : x ∉ xs := (List.nodup_cons.mp hx).1
  refine ⟨?_, List.nodup_cons.mpr ⟨fun hm => hh (List.mem_cons_of_mem _ hm),
    (List.nodup_cons.mp hx).2⟩⟩
  cases xs with
  | nil =>
    obtain ⟨h3, h4⟩ := hrest
    refine ⟨?_, ?_⟩
    · rw [delInit_next, if_neg hhx, if_pos h2.symm, h3]
    · rw [delInit_prev, if_neg hhx, if_pos h3.symm, h2]
  | cons y ys =>
    obtain ⟨⟨h3, h4⟩, htail⟩ := hrest
    have hyx : y ≠ x := fun he => hxs (he ▸ List.mem_cons_self)
    refine ⟨⟨?_, ?_⟩, htail.congr ?_ ?_⟩
    · rw [delInit_next, if_neg hhx, if_pos h2.symm, h3]
    · rw [delInit_prev, if_neg hyx, if_pos h3.symm, h2]
    · intro z hz
      have hzx : z ≠ x := fun he => hxs (he ▸ hz)
      have hzh : z ≠ h := fun he => hh (List.mem_cons_of_mem _ (he ▸ hz))
      rw [delInit_next, if_neg hzx, if_neg (h2 ▸ hzh)]
    · intro z hz
      have hzx : z ≠ x := by
        rcases List.mem_cons.mp hz with rfl | hz
        · exact hhx
        · exact fun he => hxs (he ▸ List.mem_cons_of_mem _ hz)
      have hzy : z ≠ y := by
        rcases List.mem_cons.mp hz with rfl | hz
        · exact fun he => hh (he ▸ List.mem_cons_of_mem _ List.mem_cons_self)
        · exact fun he => (List.nodup_cons.mp (List.nodup_cons.mp hx).2).1 (he ▸ hz)
      rw [delInit_prev, if_neg hzx, if_neg (h3 ▸ hzy)]

omit [DecidableEq ν] in
/-- A list none of whose nodes is a neighbour of the change. -/
theorem IsList.frame {l' : Links ν} (hl : IsList l h xs)
    (hkept : ∀ x ∈ h :: xs, l'.next x = l.next x ∧ l'.prev x = l.prev x) : IsList l' h xs :=
  ⟨hl.ring.congr (fun x hx => (hkept x hx).1) (fun x hx => (hkept x hx).2), hl.nodup⟩

end IsList

/-! ## Families of lists -/

/-- Disjoint rings, one for each head. -/
structure Queues (l : Links ν) (head : ι → ν) (q : ι → List ν) : Prop where
  isList : ∀ i, IsList l (head i) (q i)
  disjoint : ∀ i j, i ≠ j → List.Disjoint (head i :: q i) (head j :: q j)

section Queues

variable {l : Links ν} {head : ι → ν} {q : ι → List ν}

theorem Queues.addTail (hq : Queues l head q) {n : ν} (hn : ∀ i, n ∉ head i :: q i) (i : ι) :
    Queues (l.addTail n (head i)) head (Function.update q i (q i ++ [n])) := by
  have hlast : l.prev (head i) ∈ head i :: q i := (hq.isList i).ring.prev_mem
  constructor
  · intro j
    by_cases hj : j = i
    · subst hj
      rw [Function.update_self]
      exact (hq.isList j).addTail (hn j)
    · rw [Function.update_of_ne hj]
      refine (hq.isList j).frame ?_
      intro x hx
      have hxn : x ≠ n := fun he => hn j (he ▸ hx)
      have hxi : x ∉ head i :: q i := hq.disjoint j i hj hx
      have hxl : x ≠ l.prev (head i) := fun he => hxi (he ▸ hlast)
      have hxh : x ≠ head i := fun he => hxi (he ▸ List.mem_cons_self)
      rw [addTail_next, addTail_prev, if_neg hxl, if_neg hxn, if_neg hxn, if_neg hxh]
      exact ⟨rfl, rfl⟩
  · intro j k hjk
    -- a node of the extended list is an old one or `n`
    have hmem : ∀ j x, x ∈ head j :: Function.update q i (q i ++ [n]) j →
        x ∈ head j :: q j ∨ j = i ∧ x = n := by
      intro j x hx
      by_cases hj : j = i
      · subst hj
        rw [Function.update_self, ← List.cons_append, List.mem_append, List.mem_singleton] at hx
        exact hx.imp_right fun hx => ⟨rfl, hx⟩
      · rw [Function.update_of_ne hj] at hx
        exact .inl hx
    intro x hx hx'
    rcases hmem j x hx with h1 | ⟨h1, rfl⟩
    · rcases hmem k x hx' with h2 | ⟨-, rfl⟩
      · exact hq.disjoint j k hjk h1 h2
      · exact hn j h1
    · rcases hmem k x hx' with h2 | ⟨h2, -⟩
      · exact hn k h2
      · exact hjk (h1.trans h2.symm)

theorem Queues.delFirst (hq : Queues l head q) {i : ι} {x : ν} {xs : List ν} (hi : q i = x :: xs) :
    Queues (l.delInit x) head (Function.update q i xs) := by
  have hli : IsList l (head i) (x :: xs) := hi ▸ hq.isList i
  have hprev : l.prev x = head i := hli.ring.1.2
  have hnext : l.next x ∈ head i :: xs := hli.ring.2.next_mem
  have hsub : ∀ j y, y ∈ head j :: Function.update q i xs j → y ∈ head j :: q j := by
    intro j y hy
    by_cases hj : j = i
    · subst hj
      rw [Function.update_self] at hy
      rw [hi]
      rcases List.mem_cons.mp hy with rfl | hy
      · exact List.mem_cons_self
      · exact List.mem_cons_of_mem _ (List.mem_cons_of_mem _ hy)
    · rwa [Function.update_of_ne hj] at hy
  constructor
  · intro j
    by_cases hj : j = i
    · subst hj
      rw [Function.update_self]
      exact hli.delFirst
    · rw [Function.update_of_ne hj]
      refine (hq.isList j).frame ?_
      intro y hy
      have hyi : y ∉ head i :: x :: xs := hi ▸ hq.disjoint j i hj hy
      have hyx : y ≠ x := fun he => hyi (he ▸ List.mem_cons_of_mem _ List.mem_cons_self)
      have hyh : y ≠ head i := fun he => hyi (he ▸ List.mem_cons_self)
      have hyn : y ≠ l.next x := by
        rintro rfl
        rcases List.mem_cons.mp hnext with he | hm
        · exact hyh he
        · exact hyi (List.mem_cons_of_mem _ (List.mem_cons_of_mem _ hm))
      rw [delInit_next, delInit_prev, if_neg hyx, if_neg hyx, hprev, if_neg hyh, if_neg hyn]
      exact ⟨rfl, rfl⟩
  · intro j k hjk y hy hy'
    exact hq.disjoint j k hjk (hsub j y hy) (hsub k y hy')

end Queues

end HorizonOS.Lib.LinkedList
