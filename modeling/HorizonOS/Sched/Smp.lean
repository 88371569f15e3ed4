import HorizonOS.Lib.SpinLock
import HorizonOS.Sched.Mlfq

/-!
# The run queue on several processors

`mlfq_lock` lets several processors run the loop of `scheduler` (kernel/scheduler/scheduler.c)
and call `sched_enqueue` at the same time. Between `spinlock` and `release`
(kernel/scheduler/lock.c) a processor reads and writes the links one pointer at a time, and the
accesses of different processors interleave in any way. An access takes effect at once for all
processors.

* `completes_loadTail`, `completes_enter`: what the two critical sections compute.
* `smp_refines_mlfq`: every run is a run of a machine whose turns move one process at a time
  between the queue and the processors; no process is lost and none is in two places.
* `smp_lock_released`: the processor that holds the lock can always give it back.
-/

namespace HorizonOS.Sched.Smp

open HorizonOS.Lib HorizonOS.Proc

/-! ## Model -/

/-- Where a processor is between `spinlock` and `release`: before which access to a link, with
    the pointers it has read so far. -/
inductive Crit
  -- `list_add_tail(&p->sched, &mlfq[i])` (list.h:297–300 and 265–275)
  | loadTail (p : ProcId) (i : Level)
  | setHeadPrev (p : ProcId) (i : Level) (prev : Node)
  | setNewNext (p : ProcId) (i : Level) (prev : Node)
  | setNewPrev (p : ProcId) (i : Level) (prev : Node)
  | setPrevNext (p : ProcId) (i : Level) (prev : Node)
  | added (p : ProcId) (i : Level)
  -- the loop of `scheduler` (scheduler.c:74–89) at level `i`
  | loadNext (i : Level)
  | loadPrev (i : Level)
  | first (i : Level)
  | entryPrev (p : ProcId) (i : Level)
  | entryNext (p : ProcId) (i : Level) (prev : Node)
  | setNextPrev (p : ProcId) (i : Level) (prev next : Node)
  | setPrevNextOut (p : ProcId) (i : Level) (prev next : Node)
  | initPrev (p : ProcId) (i : Level)
  | initNext (p : ProcId) (i : Level)
  | claimed (p : ProcId) (i : Level)
  | nothing

/-- The test of the loop, `i < NUM_PRIORITY_LEVELS`. -/
def enter (i : ℕ) : Crit := if h : i < numPriorityLevels then .loadNext ⟨i, h⟩ else .nothing

/-- The next access. The successor of the head of a list that is not empty is a process, as in
    `pickAt`. -/
def Crit.next : Crit → Mlfq → Option (Crit × Mlfq)
  | .loadTail p i, l => some (.setHeadPrev p i (l.prev (.head i)), l)
  | .setHeadPrev p i prev, l => some (.setNewNext p i prev, l.setPrev (.head i) (.proc p))
  | .setNewNext p i prev, l => some (.setNewPrev p i prev, l.setNext (.proc p) (.head i))
  | .setNewPrev p i prev, l => some (.setPrevNext p i prev, l.setPrev (.proc p) prev)
  | .setPrevNext p i prev, l => some (.added p i, l.setNext prev (.proc p))
  | .added _ _, _ => none
  -- `list_empty_careful` reads `prev` only if `next` is the head
  | .loadNext i, l => some (if l.next (.head i) = .head i then .loadPrev i else .first i, l)
  | .loadPrev i, l => some (if l.prev (.head i) = .head i then enter (i.val + 1) else .first i, l)
  | .first i, l =>
    match l.next (.head i) with
    | .proc p => some (.entryPrev p i, l)
    | _ => some (enter (i.val + 1), l)
  | .entryPrev p i, l => some (.entryNext p i (l.prev (.proc p)), l)
  | .entryNext p i prev, l => some (.setNextPrev p i prev (l.next (.proc p)), l)
  | .setNextPrev p i prev next, l => some (.setPrevNextOut p i prev next, l.setPrev next prev)
  | .setPrevNextOut p i prev next, l => some (.initPrev p i, l.setNext prev next)
  | .initPrev p i, l => some (.initNext p i, l.setPrev (.proc p) (.proc p))
  | .initNext p i, l => some (.claimed p i, l.setNext (.proc p) (.proc p))
  | .claimed _ _, _ => none
  | .nothing, _ => none

/-- A processor: the process its scheduler has claimed, with the level it came from, the processes
    it has set up and not queued yet, and those that have exited on it. -/
structure Cpu where
  held : Option (ProcId × Level)
  fresh : Finset ProcId
  gone : Finset ProcId

/-- When a processor takes the lock: its scheduler looks for a process (scheduler.c:72), queues
    again the one that has come back (line 110), or the process that runs forks (process.c:494). -/
inductive Call : Cpu → Crit → Prop
  | claim {t : Cpu} : t.held = none → Call t (enter 0)
  | requeue {t : Cpu} {p : ProcId} {i : Level} : t.held = some (p, i) →
      Call t (.loadTail p (demote i))
  | launch {t : Cpu} {p : ProcId} (i : Level) : p ∈ t.fresh → Call t (.loadTail p i)

/-- How the processor goes on after `release`. -/
inductive Ret : Cpu → Crit → Crit → Cpu → Prop
  | claimed {t : Cpu} {c : Crit} {p : ProcId} {i : Level} :
      Ret t c (.claimed p i) { t with held := some (p, i) }
  | nothing {t : Cpu} {c : Crit} : Ret t c .nothing t
  | requeued {t : Cpu} {c : Crit} {p : ProcId} {i j : Level} : t.held = some (p, j) →
      Ret t c (.added p i) { t with held := none }
  | launched {t : Cpu} {c : Crit} {p : ProcId} {i : Level} : p ∈ t.fresh →
      Ret t c (.added p i) { t with fresh := t.fresh.erase p }

/-- The processors. Without the lock, a scheduler drops a process that has exited
    (scheduler.c:106–108). -/
def client : SpinLock.Client Cpu Crit Mlfq where
  own t t' := ∃ p i, t.held = some (p, i) ∧
    t' = { t with held := none, gone := insert p t.gone }
  call := Call
  next := Crit.next
  ret := Ret

/-! ## The critical sections -/

section Completes

open SpinLock

variable {l l' : Mlfq} {a : Crit} {p : ProcId} {i : Level}

theorem completes_loadTail (h : Completes client (.loadTail p i) l a l') :
    a = .added p i ∧ l' = enqueue l p i :=
  (((((h.of_next rfl).of_next rfl).of_next rfl).of_next rfl).of_next rfl).of_end rfl

theorem completes_entryPrev (h : Completes client (.entryPrev p i) l a l') :
    a = .claimed p i ∧ l' = l.delInit (.proc p) :=
  ((((((h.of_next rfl).of_next rfl).of_next rfl).of_next rfl).of_next rfl).of_next rfl).of_end rfl

/-- From the test of `list_empty_careful` on. -/
theorem completes_first (h : Completes client (.first i) l a l') :
    (∃ p, l.next (.head i) = .proc p ∧ a = .claimed p i ∧ l' = l.delInit (.proc p)) ∨
      (∀ p, l.next (.head i) ≠ .proc p) ∧ Completes client (enter (i.val + 1)) l a l' := by
  cases hnext : l.next (.head i) with
  | proc p =>
    have hstep : client.next (.first i) l = some (.entryPrev p i, l) := by
      simp only [client, Crit.next, hnext]
    exact .inl ⟨p, rfl, completes_entryPrev (h.of_next hstep)⟩
  | null | head j =>
    have hstep : client.next (.first i) l = some (enter (i.val + 1), l) := by
      simp only [client, Crit.next, hnext]
    exact .inr ⟨fun p => Node.noConfusion, h.of_next hstep⟩

/-- One level of the loop is `pickAt`. -/
theorem completes_loadNext (h : Completes client (.loadNext i) l a l') :
    (∃ p, pickAt l i = some (p, l') ∧ a = .claimed p i) ∨
      pickAt l i = none ∧ Completes client (enter (i.val + 1)) l a l' := by
  have hloaded := h.of_next (b := if l.next (.head i) = .head i then .loadPrev i else .first i)
    (z := l) rfl
  by_cases hempty : l.isEmpty (.head i)
  · obtain ⟨hnext, hprev⟩ : l.next (.head i) = .head i ∧ l.next (.head i) = l.prev (.head i) := by
      simpa [LinkedList.Links.isEmpty] using hempty
    rw [if_pos hnext] at hloaded
    refine .inr ⟨by rw [pickAt, if_pos hempty], hloaded.of_next ?_⟩
    simp only [client, Crit.next, if_pos (hprev.symm.trans hnext)]
  · have hfirst : Completes client (.first i) l a l' := by
      by_cases hnext : l.next (.head i) = .head i
      · have hprev : l.prev (.head i) ≠ .head i := by
          intro hprev
          exact hempty (by simp [LinkedList.Links.isEmpty, hnext, hprev])
        rw [if_pos hnext] at hloaded
        refine hloaded.of_next ?_
        simp only [client, Crit.next, if_neg hprev]
      · rwa [if_neg hnext] at hloaded
    rcases completes_first hfirst with ⟨p, hnext, rfl, rfl⟩ | ⟨hnext, hrest⟩
    · refine .inl ⟨p, ?_, rfl⟩
      rw [pickAt, if_neg hempty, hnext]
    · refine .inr ⟨?_, hrest⟩
      rw [pickAt, if_neg hempty]
      split
      · exact absurd ‹_› (hnext _)
      · rfl

/-- Where the section ends for what the scan has found. -/
def ended : Option (ProcId × Level) → Crit
  | some (p, i) => .claimed p i
  | none => .nothing

theorem drop_finRange (i : Level) : (List.finRange numPriorityLevels).drop i.val =
    i :: (List.finRange numPriorityLevels).drop (i.val + 1) := by
  rw [List.drop_eq_getElem_cons (by simp), List.getElem_finRange]
  rfl

/-- The loop from level `i` on is the scan of the levels left. -/
theorem completes_enter {i : ℕ} (h : Completes client (enter i) l a l') :
    a = ended (scanFrom l ((List.finRange numPriorityLevels).drop i)).1 ∧
      l' = (scanFrom l ((List.finRange numPriorityLevels).drop i)).2 := by
  induction hn : numPriorityLevels - i generalizing i with
  | zero =>
    have hi : ¬ i < numPriorityLevels := by omega
    rw [enter, dif_neg hi] at h
    rw [List.drop_eq_nil_of_le (by simpa using hi)]
    exact h.of_end rfl
  | succ n ih =>
    have hi : i < numPriorityLevels := by omega
    rw [enter, dif_pos hi] at h
    rw [drop_finRange ⟨i, hi⟩, scanFrom]
    rcases completes_loadNext h with ⟨p, hpick, rfl⟩ | ⟨hpick, hrest⟩
    · rw [hpick]
      exact ⟨rfl, rfl⟩
    · rw [hpick]
      have hleft : numPriorityLevels - (i + 1) = n := by omega
      exact ih hrest hleft

/-- How many accesses are left at most. -/
def Crit.rank : Crit → ℕ
  | .loadTail _ _ => 5
  | .setHeadPrev _ _ _ => 4
  | .setNewNext _ _ _ => 3
  | .setNewPrev _ _ _ => 2
  | .setPrevNext _ _ _ => 1
  | .loadNext i => 3 * (numPriorityLevels - i.val) + 6
  | .loadPrev i => 3 * (numPriorityLevels - i.val) + 5
  | .first i => 3 * (numPriorityLevels - i.val) + 4
  | .entryPrev _ _ => 6
  | .entryNext _ _ _ => 5
  | .setNextPrev _ _ _ _ => 4
  | .setPrevNextOut _ _ _ _ => 3
  | .initPrev _ _ => 2
  | .initNext _ _ => 1
  | .added _ _ | .claimed _ _ | .nothing => 0

theorem rank_enter_lt (i : Level) : (enter (i.val + 1)).rank < (Crit.first i).rank := by
  unfold enter
  split <;> simp only [Crit.rank] <;> omega

theorem rank_next {c c' : Crit} (h : c.next l = some (c', l')) : c'.rank < c.rank := by
  cases c with
  | loadNext i =>
    obtain ⟨rfl, rfl⟩ := Prod.mk.inj (Option.some.inj h)
    split <;> simp only [Crit.rank] <;> omega
  | loadPrev i =>
    obtain ⟨rfl, rfl⟩ := Prod.mk.inj (Option.some.inj h)
    have hskip := rank_enter_lt i
    split <;> simp only [Crit.rank] at hskip ⊢ <;> omega
  | first i =>
    have hskip := rank_enter_lt i
    rw [Crit.next] at h
    split at h
    · obtain ⟨rfl, rfl⟩ := Prod.mk.inj (Option.some.inj h)
      have hi := i.isLt
      simp only [Crit.rank]
      omega
    · obtain ⟨rfl, rfl⟩ := Prod.mk.inj (Option.some.inj h)
      exact hskip
  | added | claimed | nothing => exact absurd h (Option.some_ne_none _).symm
  | _ =>
    obtain ⟨rfl, -⟩ := Prod.mk.inj (Option.some.inj h)
    simp only [Crit.rank]
    decide

end Completes

/-! ## The queue as a whole -/

section System

variable {κ : Type*}

structure System (κ : Type*) where
  queue : Level → List ProcId
  cpu : κ → Cpu

/-- The turns of the multilevel feedback queue: a processor without a process claims the oldest
    one of the highest level, queues its own again one level down, drops it, or queues a new one. -/
inductive Turn [DecidableEq κ] : System κ → System κ → Prop
  | claim {a : System κ} {k : κ} {p : ProcId} {i : Level} {xs : List ProcId} :
      (a.cpu k).held = none → (∀ j < i, a.queue j = []) → a.queue i = p :: xs →
      Turn a ⟨Function.update a.queue i xs,
        Function.update a.cpu k { a.cpu k with held := some (p, i) }⟩
  | requeue {a : System κ} {k : κ} {p : ProcId} {i : Level} : (a.cpu k).held = some (p, i) →
      Turn a ⟨Function.update a.queue (demote i) (a.queue (demote i) ++ [p]),
        Function.update a.cpu k { a.cpu k with held := none }⟩
  | launch {a : System κ} {k : κ} {p : ProcId} (i : Level) : p ∈ (a.cpu k).fresh →
      Turn a ⟨Function.update a.queue i (a.queue i ++ [p]),
        Function.update a.cpu k { a.cpu k with fresh := (a.cpu k).fresh.erase p }⟩
  | retire {a : System κ} {k : κ} {p : ProcId} {i : Level} : (a.cpu k).held = some (p, i) →
      Turn a ⟨a.queue, Function.update a.cpu k
        { a.cpu k with held := none, gone := insert p (a.cpu k).gone }⟩

/-- Where a processor has a process. -/
inductive Spot
  | held
  | fresh
  | gone
deriving DecidableEq

/-- Where a process can be. -/
inductive Place (κ : Type*)
  | queued (i : Level)
  | on (k : κ) (spot : Spot)

def Cpu.Has (c : Cpu) (p : ProcId) : Spot → Prop
  | .held => ∃ i, c.held = some (p, i)
  | .fresh => p ∈ c.fresh
  | .gone => p ∈ c.gone

def System.At (a : System κ) (p : ProcId) : Place κ → Prop
  | .queued i => p ∈ a.queue i
  | .on k spot => (a.cpu k).Has p spot

/-- Every process is in one place, and at most once there. -/
structure Placed (a : System κ) : Prop where
  nodup : ∀ i, (a.queue i).Nodup
  unique : ∀ p, ∃! w, a.At p w

/-- The place is a queue or belongs to processor `k`. -/
def Place.Near (k : κ) : Place κ → Prop
  | .queued _ => True
  | .on k' _ => k' = k

variable {a a' : System κ} {k : κ} {p : ProcId} {w : Place κ}

theorem Placed.at_iff (h : Placed a) (hw : a.At p w) (w' : Place κ) : a.At p w' ↔ w' = w :=
  ⟨fun hw' => (h.unique p).unique hw' hw, fun he => he ▸ hw⟩

variable [DecidableEq κ]

/-- A turn of processor `k` that takes `p` from `w` to `w'` and leaves the other processes. -/
theorem Placed.move {q : Level → List ProcId} {c : Cpu} (h : Placed a) (w' : Place κ)
    (hnodup : ∀ i, (q i).Nodup) (hw : a.At p w) (hnear : w.Near k) (hnear' : w'.Near k)
    (hqueue : ∀ p' j, p' ∈ q j ↔ if p' = p then .queued j = w' else p' ∈ a.queue j)
    (hcpu : ∀ p' spot, c.Has p' spot ↔ if p' = p then .on k spot = w' else (a.cpu k).Has p' spot) :
    Placed ⟨q, Function.update a.cpu k c⟩ := by
  have hat : ∀ p' v, (⟨q, Function.update a.cpu k c⟩ : System κ).At p' v ↔
      if p' = p then v = w' else a.At p' v := by
    rintro p' (j | ⟨k', spot⟩)
    · exact hqueue p' j
    · by_cases hk : k' = k
      · subst hk
        simp only [System.At, Function.update_self]
        exact hcpu p' spot
      · simp only [System.At, Function.update_of_ne hk]
        split_ifs with hp
        · -- another processor had `p` no more than before
          rw [hp]
          refine iff_of_false (fun hhas => hk ?_) fun he => hk ?_
          · rw [← (h.at_iff hw (.on k' spot)).mp hhas] at hnear
            exact hnear
          · rw [← he] at hnear'
            exact hnear'
        · exact Iff.rfl
  refine ⟨hnodup, fun p' => ?_⟩
  simp only [hat]
  split_ifs
  · exact ⟨w', rfl, fun v hv => hv⟩
  · exact h.unique p'

theorem nodup_update {q : Level → List ProcId} {i : Level} {xs : List ProcId}
    (h : ∀ i, (q i).Nodup) (hxs : xs.Nodup) (j : Level) : (Function.update q i xs j).Nodup := by
  by_cases hj : j = i
  · subst hj
    rwa [Function.update_self]
  · rw [Function.update_of_ne hj]
    exact h j

theorem Placed.claim (h : Placed a) {i : Level} {xs : List ProcId} (hheld : (a.cpu k).held = none)
    (hi : a.queue i = p :: xs) : Placed ⟨Function.update a.queue i xs,
      Function.update a.cpu k { a.cpu k with held := some (p, i) }⟩ := by
  have hp : a.At p (.queued i) := by simp [System.At, hi]
  have hnodup := h.nodup i
  rw [hi, List.nodup_cons] at hnodup
  refine h.move (.on k .held) (nodup_update h.nodup hnodup.2) hp trivial rfl ?_ ?_
  · intro p' j
    have hj : p ∈ a.queue j ↔ Place.queued j = .queued i := h.at_iff hp (.queued j)
    by_cases hji : j = i
    · subst hji
      rw [Function.update_self, hi]
      grind
    · rw [Function.update_of_ne hji]
      grind
  · intro p' spot
    have hspot := h.at_iff hp (.on k spot)
    simp only [System.At] at hspot
    cases spot with
    | held =>
      simp only [Cpu.Has, hheld]
      split_ifs with hp'
      · simp [hp']
      · simp [Ne.symm hp']
    | fresh | gone =>
      simp only [Cpu.Has] at hspot ⊢
      grind

/-- A turn that queues a process which processor `k` has had. -/
theorem Placed.append {c : Cpu} {spot : Spot} (h : Placed a) (j : Level) (hp : a.At p (.on k spot))
    (hcpu : ∀ p' spot', c.Has p' spot' ↔ p' ≠ p ∧ (a.cpu k).Has p' spot') :
    Placed ⟨Function.update a.queue j (a.queue j ++ [p]), Function.update a.cpu k c⟩ := by
  have hnot : ∀ j, p ∉ a.queue j := by
    intro j hj
    cases (h.at_iff hp (.queued j)).mp hj
  refine h.move (.queued j) (nodup_update h.nodup ?_) hp rfl trivial ?_ ?_
  · rw [List.nodup_append]
    refine ⟨h.nodup j, List.nodup_singleton p, ?_⟩
    rintro x hx y hy rfl
    exact hnot j (List.mem_singleton.mp hy ▸ hx)
  · intro p' j'
    by_cases hj : j' = j
    · subst hj
      rw [Function.update_self, List.mem_append, List.mem_singleton]
      grind
    · rw [Function.update_of_ne hj]
      grind
  · intro p' spot'
    rw [hcpu]
    split_ifs with hp'
    · simp [hp']
    · simp [hp']

theorem Placed.requeue (h : Placed a) {i : Level} (j : Level)
    (hheld : (a.cpu k).held = some (p, i)) :
    Placed ⟨Function.update a.queue j (a.queue j ++ [p]),
      Function.update a.cpu k { a.cpu k with held := none }⟩ := by
  have hp : a.At p (.on k .held) := ⟨i, hheld⟩
  refine h.append j hp fun p' spot => ?_
  have hspot := h.at_iff hp (.on k spot)
  cases spot <;> simp only [System.At, Cpu.Has] at hspot ⊢ <;> grind

theorem Placed.launch (h : Placed a) (j : Level) (hfresh : p ∈ (a.cpu k).fresh) :
    Placed ⟨Function.update a.queue j (a.queue j ++ [p]),
      Function.update a.cpu k { a.cpu k with fresh := (a.cpu k).fresh.erase p }⟩ := by
  have hp : a.At p (.on k .fresh) := hfresh
  refine h.append j hp fun p' spot => ?_
  have hspot := h.at_iff hp (.on k spot)
  cases spot <;> simp only [System.At, Cpu.Has] at hspot ⊢ <;> grind

theorem Placed.retire (h : Placed a) {i : Level} (hheld : (a.cpu k).held = some (p, i)) :
    Placed ⟨a.queue, Function.update a.cpu k
      { a.cpu k with held := none, gone := insert p (a.cpu k).gone }⟩ := by
  have hp : a.At p (.on k .held) := ⟨i, hheld⟩
  refine h.move (.on k .gone) h.nodup hp rfl rfl (fun p' j => ?_) fun p' spot => ?_
  · have hj := h.at_iff hp (.queued j)
    simp only [System.At] at hj
    grind
  · have hspot := h.at_iff hp (.on k spot)
    cases spot <;> simp only [System.At, Cpu.Has] at hspot ⊢ <;> grind

/-- A turn keeps every process in one place. -/
theorem Turn.placed (hturn : Turn a a') (h : Placed a) : Placed a' := by
  cases hturn with
  | claim hheld _ hi => exact h.claim hheld hi
  | requeue hheld => exact h.requeue _ hheld
  | launch i hfresh => exact h.launch i hfresh
  | retire hheld => exact h.retire hheld

/-! ## Every interleaving -/

open SpinLock

variable {m m' : Spec κ Cpu Mlfq} {q : Level → List ProcId}

/-- The specification of the lock is at `a`. -/
def Shows (m : Spec κ Cpu Mlfq) (a : System κ) : Prop := Holds m.shared a.queue ∧ m.thread = a.cpu

/-- A section that happens at once is a turn of the queue, or finds it empty. -/
theorem Shows.step (h : Shows m a) (hplaced : Placed a) (hstep : AtomicStep client m m') :
    ∃ a', Relation.ReflTransGen Turn a a' ∧ Shows m' a' := by
  obtain ⟨hholds, hcpu⟩ := h
  obtain ⟨l, cpus⟩ := m
  obtain ⟨q, cpus'⟩ := a
  obtain rfl : cpus = cpus' := hcpu
  cases hstep with
  | @own k t hown =>
    obtain ⟨p, i, hheld, rfl⟩ := hown
    exact ⟨_, .single (.retire hheld), hholds, rfl⟩
  | @call k t c e l' hcall hends hret =>
    have hnot : ∀ p spot, (cpus k).Has p spot → ∀ j, p ∉ q j := by
      intro p spot hhas j hj
      have heq := (hplaced.at_iff (w := .on k spot) hhas (.queued j)).mp hj
      simp at heq
    cases hcall with
    | claim hheld =>
      obtain ⟨rfl, rfl⟩ := completes_enter hends
      rw [List.drop_zero] at hret ⊢
      rcases scan_spec hholds with ⟨hscan, -⟩ | ⟨i, p, xs, hfirst, hi, hscan, hrest⟩
      · rw [scan] at hscan
        rw [hscan] at hret ⊢
        cases hret
        exact ⟨_, .refl, hholds, Function.update_eq_self _ _⟩
      · rw [scan] at hscan
        rw [hscan] at hret ⊢
        cases hret
        exact ⟨_, .single (.claim hheld hfirst hi), hrest, rfl⟩
    | @requeue p i hheld =>
      obtain ⟨rfl, rfl⟩ := completes_loadTail hends
      have hout := hholds.enqueue (hnot p .held ⟨i, hheld⟩) (demote i)
      cases hret with
      | requeued _ => exact ⟨_, .single (.requeue hheld), hout, rfl⟩
      | launched hfresh =>
        have heq := (hplaced.at_iff (w := .on k .held) ⟨i, hheld⟩ (.on k .fresh)).mp hfresh
        simp at heq
    | @launch p i hfresh =>
      obtain ⟨rfl, rfl⟩ := completes_loadTail hends
      have hout := hholds.enqueue (hnot p .fresh hfresh) i
      cases hret with
      | @requeued _ _ j hheld =>
        have heq := (hplaced.at_iff (w := .on k .held) ⟨j, hheld⟩ (.on k .fresh)).mp hfresh
        simp at heq
      | launched _ => exact ⟨_, .single (.launch i hfresh), hout, rfl⟩

/-- So is a run of such sections a run of turns. -/
theorem Shows.run {m₀ : Spec κ Cpu Mlfq} {a₀ : System κ} (h : Shows m₀ a₀) (hplaced : Placed a₀)
    (hrun : Relation.ReflTransGen (AtomicStep client) m₀ m) :
    ∃ a, Relation.ReflTransGen Turn a₀ a ∧ Shows m a ∧ Placed a := by
  induction hrun with
  | refl => exact ⟨a₀, .refl, h, hplaced⟩
  | tail _ hstep ih =>
    obtain ⟨a, hturns, hshows, hplaced⟩ := ih
    obtain ⟨a', hturns', hshows'⟩ := hshows.step hplaced hstep
    refine ⟨a', hturns.trans hturns', hshows', ?_⟩
    clear hturns hshows hshows' hstep
    induction hturns' with
    | refl => exact hplaced
    | tail _ hturn ih => exact hturn.placed ih

end System

/-! ## Results -/

section Results

open SpinLock

variable {κ : Type*} [DecidableEq κ] {l : Mlfq} {q : Level → List ProcId} {cpus : κ → Cpu}
  {s : State κ Cpu Crit Mlfq}

/-- **Every interleaving of the processors is a run of the multilevel feedback queue**: at most one
    of them is between `spinlock` and `release`, what they have done so far are whole turns of the
    queue, the links are in order whenever the lock is free, and every process is in exactly one
    place. -/
theorem smp_refines_mlfq (hl : Holds l q) (hplaced : Placed ⟨q, cpus⟩)
    (hrun : Relation.ReflTransGen (Step client) (start l cpus) s) :
    (∀ k k', (s.phase k).IsInside → (s.phase k').IsInside → k = k') ∧
    ∃ q', Relation.ReflTransGen Turn ⟨q, cpus⟩ ⟨q', fun k => (s.phase k).thread⟩ ∧
      (s.flag = false → Holds s.shared q') ∧
      ∀ p, ∃! w, System.At ⟨q', fun k => (s.phase k).thread⟩ p w := by
  obtain ⟨m, hatomic, hsim⟩ := simulates hrun
  obtain ⟨a, hturns, ⟨hholds, hcpu⟩, hplaced'⟩ := Shows.run ⟨hl, rfl⟩ hplaced hatomic
  have hthreads : (fun k => (s.phase k).thread) = a.cpu := by
    rw [← hcpu]
    exact funext hsim.thread_eq
  refine ⟨hsim.exclusive, a.queue, ?_, ?_, ?_⟩
  · rw [hthreads]
    exact hturns
  · intro hfree
    rw [hsim.free hfree]
    exact hholds
  · rw [hthreads]
    exact hplaced'.unique

/-- Two processors; the first has set up all processes. -/
def pairCpus (second : Bool) : Cpu := ⟨none, if second then ∅ else Finset.univ, ∅⟩

def pairLinks : Mlfq := initScheduler ⟨fun _ => .null, fun _ => .null⟩

/-- The first process goes to the highest level. -/
def pairCall : Crit := .loadTail ⟨0, Nat.succ_pos 9⟩ ⟨0, Nat.succ_pos 2⟩

/-- Both processors ask for the lock. -/
def pairAsking : State Bool Cpu Crit Mlfq where
  flag := false
  shared := pairLinks
  phase := Function.update
    (Function.update (fun k => .outside (pairCpus k)) false (.spinning (pairCpus false) pairCall))
    true (.spinning (pairCpus true) (enter 0))

/-- The first one has got it. -/
def pairState : State Bool Cpu Crit Mlfq where
  flag := true
  shared := pairLinks
  phase := Function.update pairAsking.phase false (.inside (pairCpus false) pairCall pairCall)

theorem pairRun : Relation.ReflTransGen (Step client) (start pairLinks pairCpus) pairState := by
  have hlaunch : Call (pairCpus false) pairCall := .launch _ (Finset.mem_univ _)
  have hclaim : Call (pairCpus true) (enter 0) := .claim rfl
  have hasking : Relation.ReflTransGen (Step client) (start pairLinks pairCpus) pairAsking :=
    .tail (.single (.call (C := client) (k := false) rfl hlaunch))
      (.call (C := client) (k := true) rfl hclaim)
  have hacquire : Step client pairAsking pairState :=
    .acquire (k := false) (t := pairCpus false) (c := pairCall) rfl rfl
  exact (hasking.tail hacquire).tail (.spin (k := true) (t := pairCpus true) (c := enter 0) rfl rfl)

theorem pairPlaced : Placed (⟨fun _ => [], pairCpus⟩ : System Bool) := by
  refine ⟨fun _ => List.nodup_nil, fun p => ⟨.on false .fresh, Finset.mem_univ p, ?_⟩⟩
  rintro (i | ⟨k, spot⟩) hat
  · exact absurd hat List.not_mem_nil
  · cases k <;> cases spot <;> simp_all [System.At, Cpu.Has, pairCpus]

theorem smp_refines_mlfq_pair :
    ∃ q', Relation.ReflTransGen Turn ⟨fun _ => [], pairCpus⟩
      ⟨q', fun k => (pairState.phase k).thread⟩ ∧
      ∀ p, ∃! w, System.At ⟨q', fun k => (pairState.phase k).thread⟩ p w := by
  obtain ⟨-, q', hturns, -, hplaces⟩ :=
    smp_refines_mlfq (holds_initScheduler _) pairPlaced pairRun
  exact ⟨q', hturns, hplaces⟩

/-- **The lock never stays taken**: from every reachable state the processor that holds it can
    finish its section and release it, without a step of any other. -/
theorem smp_lock_released
    (hrun : Relation.ReflTransGen (Step client) (start l cpus) s) (htaken : s.flag = true) :
    ∃ k s', Relation.ReflTransGen (Step client) s s' ∧ s'.flag = false ∧
      (∀ j, j ≠ k → s'.phase j = s.phase j) ∧ ¬ (s'.phase k).IsInside := by
  obtain ⟨m, -, hsim⟩ := simulates hrun
  refine hsim.releases htaken (exists_completes Crit.rank fun c l c' l' => rank_next) ?_
  intro t c l a l' hcall hends
  cases hcall with
  | claim hheld =>
    obtain ⟨rfl, -⟩ := completes_enter hends
    cases (scanFrom l ((List.finRange numPriorityLevels).drop 0)).1 with
    | none => exact ⟨t, .nothing⟩
    | some found => exact ⟨_, .claimed⟩
  | requeue hheld =>
    obtain ⟨rfl, -⟩ := completes_loadTail hends
    exact ⟨_, .requeued hheld⟩
  | launch i hfresh =>
    obtain ⟨rfl, -⟩ := completes_loadTail hends
    exact ⟨_, .launched hfresh⟩

theorem smp_lock_released_pair :
    ∃ k s', Relation.ReflTransGen (Step client) pairState s' ∧ s'.flag = false ∧
      (∀ j, j ≠ k → s'.phase j = pairState.phase j) ∧ ¬ (s'.phase k).IsInside :=
  smp_lock_released pairRun rfl

end Results

end HorizonOS.Sched.Smp
