import HorizonOS.Lib.LinkedList
import HorizonOS.Proc.Basic

/-!
# The multilevel feedback queue

The lists `mlfq[NUM_PRIORITY_LEVELS]` of `kernel/scheduler/scheduler.c`, threaded through the
field `sched` of the processes on them.

* `Holds`: the rings hold the given processes, level by level.
* `Holds.enqueue`: `list_add_tail` on one level.
* `scan_spec`: the loop of `scheduler` takes the oldest process of the highest level that has one.
* `Holds.queue_eq`: following the links of a level lists what it holds.
-/

namespace HorizonOS.Sched

open HorizonOS.Lib.LinkedList HorizonOS.Proc

/-! ## Model -/

/-- `NUM_PRIORITY_LEVELS` (scheduler.h:6). -/
abbrev numPriorityLevels : ℕ := 3

abbrev Level := Fin numPriorityLevels

/-- There is a process in slot 0. -/
scoped instance : NeZero numProcesses := ⟨by decide⟩

/-- A `struct list_head *`: `NULL`, `&mlfq[level]` or `&p->sched`. -/
inductive Node
  | null
  | head (level : Level)
  | proc (p : ProcId)
deriving DecidableEq

abbrev Mlfq := Links Node

/-- The loop of `init_scheduler` (scheduler.c:21–23). -/
def initScheduler (l : Mlfq) : Mlfq := (List.finRange numPriorityLevels).foldl (fun l i => l.init (.head i)) l

/-- The test of `sched_enqueue` (scheduler.c:31–33); `none` is its panic. -/
def checkLevel (level : ℤ) : Option Level :=
  if h : level < 0 ∨ (numPriorityLevels : ℤ) ≤ level then none
  else some ⟨level.toNat, by omega⟩

/-- `list_add_tail(&p->sched, &mlfq[level])` (scheduler.c:42). -/
def enqueue (l : Mlfq) (p : ProcId) (level : Level) : Mlfq := l.addTail (.proc p) (.head level)

/-- `demote(level)` (scheduler.c:49–55). -/
def demote (level : Level) : Level :=
  if h : level.val + 1 < numPriorityLevels then ⟨level.val + 1, h⟩ else level

/-- The body of the loop of `scheduler` (scheduler.c:77–88) for one level. On a ring the successor
    of a head with a nonempty list is a process. -/
def pickAt (l : Mlfq) (i : Level) : Option (ProcId × Mlfq) :=
  if l.isEmpty (.head i) then none
  else
    match l.next (.head i) with
    | .proc p => some (p, l.delInit (.proc p))
    | _ => none

/-- The loop of `scheduler` (scheduler.c:74–90) over the levels left. -/
def scanFrom (l : Mlfq) : List Level → Option (ProcId × Level) × Mlfq
  | [] => (none, l)
  | i :: is =>
    match pickAt l i with
    | some (p, l) => (some (p, i), l)
    | none => scanFrom l is

def scan (l : Mlfq) : Option (ProcId × Level) × Mlfq := scanFrom l (List.finRange numPriorityLevels)

/-- The zeroing of `p->sched` in `*p = (struct process){ 0 }` (process.c:331 and 374). -/
def clearLinks (l : Mlfq) (p : ProcId) : Mlfq := (l.setNext (.proc p) .null).setPrev (.proc p) .null

/-- The processes met from a node on, along at most `fuel` links. -/
def follow (l : Mlfq) : (fuel : ℕ) → Node → List ProcId
  | fuel + 1, .proc p => p :: follow l fuel (l.next (.proc p))
  | _, _ => []

/-- The processes on a level, in order. -/
def queue (l : Mlfq) (i : Level) : List ProcId := follow l numProcesses (l.next (.head i))

/-! ## Contents -/

/-- Level `i` holds the processes `q i`, oldest first. -/
def Holds (l : Mlfq) (q : Level → List ProcId) : Prop :=
  Queues l Node.head fun i => (q i).map Node.proc

section Holds

variable {l : Mlfq} {q : Level → List ProcId} {p : ProcId} {i : Level}

theorem map_update (q : Level → List ProcId) (i : Level) (xs : List ProcId) :
    (fun j => (Function.update q i xs j).map Node.proc) =
      Function.update (fun j => (q j).map Node.proc) i (xs.map Node.proc) := by
  funext j
  by_cases hj : j = i
  · subst hj
    rw [Function.update_self, Function.update_self]
  · rw [Function.update_of_ne hj, Function.update_of_ne hj]

theorem mem_ring_iff : Node.proc p ∈ Node.head i :: (q i).map Node.proc ↔ p ∈ q i := by
  simp

theorem Holds.enqueue (h : Holds l q) (hp : ∀ j, p ∉ q j) (i : Level) :
    Holds (enqueue l p i) (Function.update q i (q i ++ [p])) := by
  unfold Holds
  rw [map_update, List.map_append]
  exact Queues.addTail h (fun j hm => hp j (mem_ring_iff.mp hm)) i

theorem Holds.nodup (h : Holds l q) (i : Level) : (q i).Nodup :=
  (List.nodup_cons.mp (h.isList i).nodup).2.of_map

theorem Holds.eq_of_mem {j : Level} (h : Holds l q) (hi : p ∈ q i) (hj : p ∈ q j) : i = j := by
  by_contra hij
  exact h.disjoint i j hij (mem_ring_iff.mpr hi) (mem_ring_iff.mpr hj)

theorem follow_of_seg {fuel : ℕ} {xs : List ProcId} {a : Node}
    (h : Seg l a (xs.map Node.proc) (.head i)) (hfuel : xs.length ≤ fuel) :
    follow l fuel (l.next a) = xs := by
  induction xs generalizing a fuel with
  | nil =>
    have hnext : l.next a = .head i := h.1
    rw [hnext]
    cases fuel <;> rfl
  | cons p xs ih =>
    obtain ⟨⟨hnext, -⟩, hrest⟩ := h
    obtain ⟨fuel, rfl⟩ := Nat.exists_eq_add_of_le' (Nat.le_trans (Nat.le_add_left 1 _) hfuel)
    rw [hnext, follow, ih hrest (Nat.le_of_succ_le_succ hfuel)]

/-- A level has at most as many processes as the table. -/
theorem Holds.queue_eq (h : Holds l q) (i : Level) : queue l i = q i := by
  have hlen : (q i).length ≤ numProcesses := by
    have hcard := (h.nodup i).length_le_card
    rwa [Fintype.card_fin] at hcard
  exact follow_of_seg (h.isList i).ring hlen

theorem Holds.pickAt_nil (h : Holds l q) (hi : q i = []) : pickAt l i = none := by
  have hempty := ((h.isList i).isEmpty_iff).mpr (by rw [hi]; rfl)
  rw [pickAt, if_pos hempty]

theorem Holds.pickAt_cons (h : Holds l q) {xs : List ProcId} (hi : q i = p :: xs) :
    pickAt l i = some (p, l.delInit (.proc p)) ∧
      Holds (l.delInit (.proc p)) (Function.update q i xs) := by
  have hring : (q i).map Node.proc = .proc p :: xs.map Node.proc := by rw [hi]; rfl
  have hlist : IsList l (.head i) (.proc p :: xs.map Node.proc) := hring ▸ h.isList i
  have hne : ¬ l.isEmpty (.head i) = true := by
    rw [hlist.isEmpty_iff]
    exact List.cons_ne_nil _ _
  constructor
  · rw [pickAt, if_neg hne, hlist.next_head]
  · unfold Holds
    rw [map_update]
    exact Queues.delFirst h hring

theorem Holds.clearLinks (h : Holds l q) (hp : ∀ j, p ∉ q j) : Holds (clearLinks l p) q := by
  refine ⟨fun j => (h.isList j).frame ?_, h.disjoint⟩
  intro x hx
  have hxp : x ≠ .proc p := fun he => hp j (mem_ring_iff.mp (he ▸ hx))
  exact ⟨Function.update_of_ne hxp _ _, Function.update_of_ne hxp _ _⟩

/-- The scan over the levels left finds the first of them that is not empty. -/
theorem Holds.scanFrom (h : Holds l q) (is : List Level) :
    (scanFrom l is = (none, l) ∧ ∀ j ∈ is, q j = []) ∨
    ∃ pre i post p xs, is = pre ++ i :: post ∧ (∀ j ∈ pre, q j = []) ∧ q i = p :: xs ∧
      scanFrom l is = (some (p, i), l.delInit (.proc p)) ∧
      Holds (l.delInit (.proc p)) (Function.update q i xs) := by
  induction is with
  | nil => exact .inl ⟨rfl, List.forall_mem_nil _⟩
  | cons i is ih =>
    cases hi : q i with
    | nil =>
      have hskip : Sched.scanFrom l (i :: is) = Sched.scanFrom l is := by
        rw [Sched.scanFrom, h.pickAt_nil hi]
      rw [hskip]
      rcases ih with ⟨hscan, hall⟩ | ⟨pre, k, post, p, xs, rfl, hpre, hk, hscan, hholds⟩
      · exact .inl ⟨hscan, List.forall_mem_cons.mpr ⟨hi, hall⟩⟩
      · exact .inr ⟨i :: pre, k, post, p, xs, rfl, List.forall_mem_cons.mpr ⟨hi, hpre⟩, hk, hscan,
          hholds⟩
    | cons p xs =>
      obtain ⟨hpick, hholds⟩ := h.pickAt_cons hi
      refine .inr ⟨[], i, is, p, xs, rfl, List.forall_mem_nil _, hi, ?_, hholds⟩
      rw [Sched.scanFrom, hpick]

/-- The scan takes the oldest process of the highest level that has one. -/
theorem scan_spec (h : Holds l q) :
    (scan l = (none, l) ∧ ∀ j, q j = []) ∨
    ∃ i p xs, (∀ j < i, q j = []) ∧ q i = p :: xs ∧
      scan l = (some (p, i), l.delInit (.proc p)) ∧
      Holds (l.delInit (.proc p)) (Function.update q i xs) := by
  rcases h.scanFrom (List.finRange numPriorityLevels) with
    ⟨hscan, hall⟩ | ⟨pre, i, post, p, xs, hsplit, hpre, hi, hscan, hholds⟩
  · exact .inl ⟨hscan, fun j => hall j (List.mem_finRange j)⟩
  · refine .inr ⟨i, p, xs, ?_, hi, hscan, hholds⟩
    intro j hj
    -- the levels before `i` in the scan are the smaller ones
    have hsorted : (List.finRange numPriorityLevels).Pairwise (· < ·) := List.pairwise_lt_finRange _
    rw [hsplit] at hsorted
    have hmem : j ∈ pre ++ i :: post := hsplit ▸ List.mem_finRange j
    rcases List.mem_append.mp hmem with hj' | hj'
    · exact hpre j hj'
    · have hpost := (List.pairwise_cons.mp (List.pairwise_append.mp hsorted).2.1).1
      rcases List.mem_cons.mp hj' with rfl | hj'
      · exact absurd hj (lt_irrefl _)
      · exact absurd hj (lt_asymm (hpost j hj'))

/-- After `init_scheduler` every level is empty. -/
theorem holds_initScheduler (l : Mlfq) : Holds (initScheduler l) fun _ => [] := by
  have hkeep (l : Mlfq) (i j : Level) (hij : i ≠ j) (hl : IsList l (.head i) []) :
      IsList (l.init (.head j)) (.head i) [] := by
    refine hl.frame ?_
    intro x hx
    have hx' : x ≠ .head j := by
      rw [List.mem_singleton.mp hx]
      exact fun he => hij (Node.head.inj he)
    exact ⟨Function.update_of_ne hx' _ _, Function.update_of_ne hx' _ _⟩
  -- the heads initialised so far
  have hloop : ∀ (is : List Level) (l : Mlfq) (i : Level),
      i ∈ is ∨ IsList l (.head i) [] →
      IsList (is.foldl (fun l i => l.init (.head i)) l) (.head i) [] := by
    intro is
    induction is with
    | nil =>
      intro l i hi
      exact hi.resolve_left List.not_mem_nil
    | cons k is ih =>
      intro l i hi
      refine ih _ i ?_
      by_cases hik : i = k
      · subst hik
        exact .inr (isList_init l _)
      · rcases hi with hi | hi
        · exact .inl ((List.mem_cons.mp hi).resolve_left hik)
        · exact .inr (hkeep l i k hik hi)
  refine ⟨fun i => hloop _ l i (.inl (List.mem_finRange i)), ?_⟩
  intro i j hij x hx hx'
  rw [List.map_nil, List.mem_singleton] at hx hx'
  exact hij (Node.head.inj (hx.symm.trans hx'))

end Holds

end HorizonOS.Sched
