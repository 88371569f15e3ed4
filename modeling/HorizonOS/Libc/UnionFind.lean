import HorizonOS.Lib.Forest
import Mathlib.Data.Set.Card

/-!
# Union-find

The union-find of `libc/datastructures/ufds/ufds.c`: `UnionFind`, `findSet` with path compression,
`in_same_set` and `unionSet`. The elements are `0 … n - 1`, ranks and sizes are `int`s that wrap
around. `unionSet` compares the ranks of two roots and attaches one to the other. When the ranks are
equal, `rj` is attached to `ri`, but it is the rank of `rj` that grows (line 64).

* `findSet_spec`: `findSet` returns the root and compresses the way to it.
* `unionSet_cases`: `unionSet` compresses, and attaches one root to another if they differ.
* `unionFind_connectivity`: the parents are a forest of the sets united, whatever the ranks.
* `ranks_bound_iff`: the ranks bound the heights as long as nothing has been united.
-/

namespace HorizonOS.Libc.UnionFind

open HorizonOS.Lib

/-- `struct ufds` (ufds.h:12–42) for `len = n`. -/
structure Ufds (n : ℕ) where
  rank : Fin n → BitVec 32
  parent : Fin n → Fin n
  size : Fin n → BitVec 32
  numSets : BitVec 32

variable {n : ℕ}

/-- The `int`s of an array after `memset(array, 0, n)`, which clears `n` bytes and not `n`
    `int`s. -/
def memsetInts (array : Fin n → BitVec 32) : Fin n → BitVec 32 := fun i =>
  let cleared := n - 4 * i
  (array i >>> (8 * cleared)) <<< (8 * cleared)

/-- `UnionFind(size)` (ufds.c:7–42). Each `malloc` fails or returns memory with any contents;
    `num_sets` keeps what it found there. -/
def unionFind (ret : Option (BitVec 32)) (rank parent size : Option (Fin n → BitVec 32)) :
    Option (Ufds n) := do
  let numSets ← ret
  let rank ← rank
  let _ ← parent
  let size ← size
  return { rank := memsetInts rank, parent := fun i => i, size := memsetInts size, numSets }

/-- `uf->parent[i] = r`. -/
def Ufds.setParent (uf : Ufds n) (i r : Fin n) : Ufds n :=
  { uf with parent := Function.update uf.parent i r }

/-- `findSet(i, uf)` (ufds.c:44–49), with `fuel` calls at most. -/
def findSet : (fuel : ℕ) → (i : Fin n) → Ufds n → Option (Fin n × Ufds n)
  | 0, _, _ => none
  | fuel + 1, i, uf =>
    if uf.parent i ≠ i then do
      let (r, uf) ← findSet fuel (uf.parent i) uf
      return (r, uf.setParent i r)
    else some (i, uf)

/-- `in_same_set(i, j, uf)` (ufds.c:51–53). -/
def inSameSet (i j : Fin n) (uf : Ufds n) : Option (Bool × Ufds n) := do
  let (ri, uf) ← findSet n i uf
  let (rj, uf) ← findSet n j uf
  return (ri == rj, uf)

/-- `array[i]++`. -/
def increment (array : Fin n → BitVec 32) (i : Fin n) : Fin n → BitVec 32 :=
  Function.update array i (array i + 1)

/-- The body of `unionSet` for two different roots (ufds.c:58–68). -/
def link (ri rj : Fin n) (uf : Ufds n) : Ufds n :=
  let uf :=
    if (uf.rank ri).slt (uf.rank rj) then
      { uf.setParent ri rj with size := increment uf.size rj }
    else if uf.rank ri = uf.rank rj then
      { uf.setParent rj ri with rank := increment uf.rank rj, size := increment uf.size rj }
    else uf.setParent rj ri
  { uf with numSets := uf.numSets - 1 }

/-- `unionSet(i, j, uf)` (ufds.c:55–70). -/
def unionSet (i j : Fin n) (uf : Ufds n) : Option (Ufds n) := do
  let (same, uf) ← inSameSet i j uf
  if same then return uf
  let (ri, uf) ← findSet n i uf
  let (rj, uf) ← findSet n j uf
  return link ri rj uf

/-- The calls a program makes. -/
inductive Op (n : ℕ)
  | unionSet (i j : Fin n)
  | inSameSet (i j : Fin n)
  | findSet (i : Fin n)

def step (uf : Ufds n) : Op n → Option (Ufds n)
  | .unionSet i j => unionSet i j uf
  | .inSameSet i j => (inSameSet i j uf).map Prod.snd
  | .findSet i => (findSet n i uf).map Prod.snd

/-- A sequence of calls. -/
def run (uf : Ufds n) (ops : List (Op n)) : Option (Ufds n) := ops.foldlM step uf

/-- The pairs that `unionSet` was called with. -/
def United (ops : List (Op n)) (i j : Fin n) : Prop := Op.unionSet i j ∈ ops

/-! ## What a call does -/

/-- Path compression: the roots stay, and so does everything but the parents. -/
structure Compressed (uf uf' : Ufds n) : Prop where
  rootOf : ∀ x r, RootOf uf.parent x r → RootOf uf'.parent x r
  rank : uf'.rank = uf.rank

namespace Compressed

variable {uf uf' uf'' : Ufds n}

theorem refl (uf : Ufds n) : Compressed uf uf := ⟨fun _ _ h => h, rfl⟩

theorem trans (h : Compressed uf uf') (h' : Compressed uf' uf'') : Compressed uf uf'' :=
  ⟨fun x r hx => h'.rootOf x r (h.rootOf x r hx), h'.rank.trans h.rank⟩

theorem isForest (h : Compressed uf uf') (hf : IsForest uf.parent) : IsForest uf'.parent :=
  hf.of_rootOf h.rootOf

theorem rootOf_iff (h : Compressed uf uf') (hf : IsForest uf.parent) (x r : Fin n) :
    RootOf uf'.parent x r ↔ RootOf uf.parent x r := by
  refine ⟨fun hx => ?_, h.rootOf x r⟩
  obtain ⟨s, hs⟩ := hf x
  rwa [hx.unique (h.rootOf x s hs)]

theorem isRoot (h : Compressed uf uf') (hf : IsForest uf.parent) {r : Fin n}
    (hr : uf'.parent r = r) : uf.parent r = r :=
  ((h.rootOf_iff hf r r).mp (.self hr)).isRoot

end Compressed

/-- `findSet` returns the root of `i`. -/
theorem findSet_spec {uf : Ufds n} {i r : Fin n} {k fuel : ℕ} (h : Climb uf.parent i k r)
    (hfuel : k < fuel) : ∃ uf', findSet fuel i uf = some (r, uf') ∧ Compressed uf uf' := by
  induction h generalizing fuel with
  | root hr =>
    obtain ⟨fuel, rfl⟩ := Nat.exists_eq_add_of_lt hfuel
    exact ⟨uf, by rw [findSet, if_neg (not_not.mpr hr)], .refl uf⟩
  | @up x r k hx h ih =>
    obtain ⟨fuel, rfl⟩ := Nat.exists_eq_add_of_lt hfuel
    obtain ⟨uf', hrun, hcomp⟩ := ih (by omega : k < k + 1 + fuel)
    have hroot : RootOf uf'.parent x r := hcomp.rootOf x r ⟨k + 1, .up hx h⟩
    refine ⟨uf'.setParent x r, ?_, hcomp.trans ⟨fun _ _ hy => hroot.compress hy, rfl⟩⟩
    rw [findSet, if_pos hx, hrun]
    rfl

theorem findSet_root {uf : Ufds n} {i r : Fin n} (h : RootOf uf.parent i r) :
    ∃ uf', findSet n i uf = some (r, uf') ∧ Compressed uf uf' := by
  obtain ⟨k, h⟩ := h
  have hk := h.lt_card
  rw [Fintype.card_fin] at hk
  exact findSet_spec h hk

section Calls

variable {uf : Ufds n} (hf : IsForest uf.parent) (i j : Fin n)

include hf

theorem inSameSet_spec : ∃ same uf', inSameSet i j uf = some (same, uf') ∧
    (same = true ↔ SameRoot uf.parent i j) ∧ Compressed uf uf' := by
  obtain ⟨ri, hi⟩ := hf i
  obtain ⟨rj, hj⟩ := hf j
  obtain ⟨uf₁, hrun, hcomp⟩ := findSet_root hi
  obtain ⟨uf₂, hrun', hcomp'⟩ := findSet_root (hcomp.rootOf j rj hj)
  refine ⟨ri == rj, uf₂, ?_, ?_, hcomp.trans hcomp'⟩
  · rw [inSameSet, hrun]
    simp only [Option.bind_eq_bind, Option.bind_some, hrun', Option.pure_def]
  · rw [beq_iff_eq, SameRoot.iff_eq hi hj]

/-- `unionSet` compresses, and attaches one root to another if they differ. -/
theorem unionSet_cases : ∃ uf', unionSet i j uf = some uf' ∧
    (SameRoot uf.parent i j ∧ Compressed uf uf' ∨
      ∃ mid ri rj, Compressed uf mid ∧ RootOf mid.parent i ri ∧ RootOf mid.parent j rj ∧
        ri ≠ rj ∧ uf' = link ri rj mid) := by
  obtain ⟨same, uf₁, hrun, hsame, hcomp⟩ := inSameSet_spec hf i j
  cases same with
  | true =>
    refine ⟨uf₁, ?_, .inl ⟨hsame.mp rfl, hcomp⟩⟩
    rw [unionSet, hrun]
    rfl
  | false =>
    obtain ⟨ri, hi⟩ := hcomp.isForest hf i
    obtain ⟨uf₂, hrun₂, hcomp₂⟩ := findSet_root hi
    obtain ⟨rj, hj⟩ := hcomp₂.isForest (hcomp.isForest hf) j
    obtain ⟨uf₃, hrun₃, hcomp₃⟩ := findSet_root hj
    have hmid := (hcomp.trans hcomp₂).trans hcomp₃
    have hi₃ := hcomp₃.rootOf i ri (hcomp₂.rootOf i ri hi)
    have hj₃ := hcomp₃.rootOf j rj hj
    refine ⟨link ri rj uf₃, ?_, .inr ⟨uf₃, ri, rj, hmid, hi₃, hj₃, ?_, rfl⟩⟩
    · rw [unionSet, hrun]
      simp only [Option.bind_eq_bind, Option.bind_some, hrun₂, hrun₃, Option.pure_def,
        Bool.false_eq_true, if_false]
    · rintro rfl
      have hroot : SameRoot uf.parent i j :=
        ⟨ri, (hmid.rootOf_iff hf i ri).mp hi₃, (hmid.rootOf_iff hf j ri).mp hj₃⟩
      exact Bool.false_ne_true (hsame.mpr hroot)

end Calls

/-- Which of the two roots `link` attaches. -/
theorem link_parent (ri rj : Fin n) (uf : Ufds n) :
    (link ri rj uf).parent = Function.update uf.parent ri rj ∨
    (link ri rj uf).parent = Function.update uf.parent rj ri := by
  unfold link
  split_ifs
  · exact .inl rfl
  · exact .inr rfl
  · exact .inr rfl

/-! ## Connectivity -/

/-- The parents are a forest whose trees are the classes of the pairs united. -/
structure Tracks (uf : Ufds n) (united : Fin n → Fin n → Prop) : Prop where
  isForest : IsForest uf.parent
  sameRoot : ∀ x y, SameRoot uf.parent x y ↔ Relation.EqvGen united x y

theorem Tracks.compressed {uf uf' : Ufds n} {united : Fin n → Fin n → Prop}
    (h : Tracks uf united) (hc : Compressed uf uf') : Tracks uf' united where
  isForest := hc.isForest h.isForest
  sameRoot x y := (SameRoot.congr h.isForest hc.rootOf x y).trans (h.sameRoot x y)

theorem Tracks.init {uf : Ufds n} (h : ∀ i, uf.parent i = i) :
    Tracks uf fun _ _ => False where
  isForest x := ⟨x, .self (h x)⟩
  sameRoot x y := by
    rw [SameRoot.iff_eq (.self (h x)) (.self (h y))]
    constructor
    · rintro rfl
      exact .refl x
    · intro hxy
      induction hxy with
      | rel _ _ hrel => exact hrel.elim
      | refl => rfl
      | symm _ _ _ ih => exact ih.symm
      | trans _ _ _ _ _ ih ih' => exact ih.trans ih'

/-- Attaching the root of `i` to that of `j`, or the other way round, unites `i` and `j`. -/
theorem Tracks.link {uf : Ufds n} {united : Fin n → Fin n → Prop} (h : Tracks uf united)
    {i j ri rj : Fin n} (hi : RootOf uf.parent i ri) (hj : RootOf uf.parent j rj) (hne : ri ≠ rj) :
    Tracks (link ri rj uf) fun u v => united u v ∨ u = i ∧ v = j := by
  have hri : Relation.EqvGen united ri i :=
    (h.sameRoot ri i).mp ⟨ri, .self hi.isRoot, hi⟩
  have hrj : Relation.EqvGen united rj j :=
    (h.sameRoot rj j).mp ⟨rj, .self hj.isRoot, hj⟩
  have hclass : ∀ {a b : Fin n}, Relation.EqvGen united a b → ∀ x,
      (Relation.EqvGen united x a ↔ Relation.EqvGen united x b) ∧
      (Relation.EqvGen united a x ↔ Relation.EqvGen united b x) := fun hab x =>
    ⟨⟨fun hx => hx.trans _ _ _ hab, fun hx => hx.trans _ _ _ hab.symm⟩,
      ⟨fun hx => hab.symm.trans _ _ _ hx, fun hx => hab.trans _ _ _ hx⟩⟩
  rcases link_parent ri rj uf with hp | hp
  · refine ⟨hp ▸ h.isForest.link hi.isRoot hj.isRoot hne, fun x y => ?_⟩
    rw [hp, SameRoot.link h.isForest hi.isRoot hj.isRoot hne, eqvGen_insert]
    simp only [h.sameRoot, (hclass hri _).1, (hclass hri _).2, (hclass hrj _).1,
      (hclass hrj _).2]
  · refine ⟨hp ▸ h.isForest.link hj.isRoot hi.isRoot hne.symm, fun x y => ?_⟩
    rw [hp, SameRoot.link h.isForest hj.isRoot hi.isRoot hne.symm, eqvGen_insert]
    simp only [h.sameRoot, (hclass hri _).1, (hclass hri _).2, (hclass hrj _).1,
      (hclass hrj _).2]
    rw [or_comm (a := _ ∧ _)]

theorem Tracks.congr {uf : Ufds n} {united united' : Fin n → Fin n → Prop} (h : Tracks uf united)
    (heq : ∀ x y, Relation.EqvGen united' x y ↔ Relation.EqvGen united x y) : Tracks uf united' where
  isForest := h.isForest
  sameRoot x y := (h.sameRoot x y).trans (heq x y).symm

/-- Uniting two elements of one class changes no class. -/
theorem eqvGen_insert_self {united : Fin n → Fin n → Prop} {i j : Fin n}
    (hij : Relation.EqvGen united i j) (x y : Fin n) :
    Relation.EqvGen (fun u v => united u v ∨ u = i ∧ v = j) x y ↔ Relation.EqvGen united x y := by
  rw [eqvGen_insert]
  refine ⟨?_, .inl⟩
  rintro (h | ⟨h, h'⟩ | ⟨h, h'⟩)
  · exact h
  · exact (h.trans _ _ _ hij).trans _ _ _ h'
  · exact (h.trans _ _ _ hij.symm).trans _ _ _ h'

theorem step_tracks {uf : Ufds n} {united : Fin n → Fin n → Prop} (h : Tracks uf united)
    (op : Op n) : ∃ uf', step uf op = some uf' ∧ Tracks uf' fun u v => united u v ∨ United [op] u v := by
  have hold : (∀ u v, ¬United [op] u v) → Tracks uf fun u v => united u v ∨ United [op] u v :=
    fun hnone => by simpa only [hnone, or_false] using h
  cases op with
  | unionSet i j =>
    have hpair : (fun u v => united u v ∨ United [Op.unionSet i j] u v) =
        fun u v => united u v ∨ u = i ∧ v = j := by
      funext u v
      simp [United]
    rw [hpair]
    obtain ⟨uf', hrun, ⟨hsame, hcomp⟩ | ⟨mid, ri, rj, hcomp, hi, hj, hne, rfl⟩⟩ :=
      unionSet_cases h.isForest i j
    · exact ⟨uf', hrun, (h.compressed hcomp).congr
        (eqvGen_insert_self ((h.sameRoot i j).mp hsame))⟩
    · exact ⟨_, hrun, (h.compressed hcomp).link hi hj hne⟩
  | inSameSet i j =>
    obtain ⟨same, uf', hrun, -, hcomp⟩ := inSameSet_spec h.isForest i j
    exact ⟨uf', by rw [step, hrun]; rfl, (hold (by simp [United])).compressed hcomp⟩
  | findSet i =>
    obtain ⟨r, hi⟩ := h.isForest i
    obtain ⟨uf', hrun, hcomp⟩ := findSet_root hi
    exact ⟨uf', by rw [step, hrun]; rfl, (hold (by simp [United])).compressed hcomp⟩

/-- Every call of a run returns, and the forest keeps track of all pairs united. -/
theorem run_tracks {uf : Ufds n} {united : Fin n → Fin n → Prop} (h : Tracks uf united)
    (ops : List (Op n)) : ∃ uf', run uf ops = some uf' ∧
      Tracks uf' fun u v => united u v ∨ United ops u v := by
  induction ops generalizing uf united with
  | nil => exact ⟨uf, rfl, by simpa [United] using h⟩
  | cons op ops ih =>
    obtain ⟨uf₁, hstep, h₁⟩ := step_tracks h op
    obtain ⟨uf', hrun, h'⟩ := ih h₁
    refine ⟨uf', ?_, ?_⟩
    · rw [run, List.foldlM_cons, hstep]
      exact hrun
    · convert h' using 3 with u v
      simp [United, or_assoc]

theorem unionFind_parent {ret : Option (BitVec 32)} {rank parent size : Option (Fin n → BitVec 32)}
    {uf : Ufds n} (h : unionFind ret rank parent size = some uf) (i : Fin n) : uf.parent i = i := by
  match ret, rank, parent, size, h with
  | some _, some _, some _, some _, h =>
    obtain rfl := Option.some.inj h
    rfl

/-- **The union-find computes connectivity.** After `UnionFind(n)`, with any ranks, every sequence
    of calls returns. Then following the parents leads to a root from every element, `findSet`
    returns that root and changes no element's root, and `in_same_set` tells whether two elements
    are connected by the pairs united so far. -/
theorem unionFind_connectivity {ret : Option (BitVec 32)}
    {rank parent size : Option (Fin n → BitVec 32)} {uf₀ : Ufds n}
    (hnew : unionFind ret rank parent size = some uf₀) (ranks : Fin n → BitVec 32)
    (ops : List (Op n)) : ∃ uf, run { uf₀ with rank := ranks } ops = some uf ∧
      IsForest uf.parent ∧
      (∀ i, ∃ r uf', findSet n i uf = some (r, uf') ∧ RootOf uf.parent i r ∧
        ∀ x s, RootOf uf'.parent x s ↔ RootOf uf.parent x s) ∧
      ∀ i j, ∃ same uf', inSameSet i j uf = some (same, uf') ∧
        (same = true ↔ Relation.EqvGen (United ops) i j) := by
  have hinit : Tracks { uf₀ with rank := ranks } fun _ _ => False :=
    .init fun i => unionFind_parent hnew i
  obtain ⟨uf, hrun, h⟩ := run_tracks hinit ops
  simp only [false_or] at h
  refine ⟨uf, hrun, h.isForest, fun i => ?_, fun i j => ?_⟩
  · obtain ⟨r, hi⟩ := h.isForest i
    obtain ⟨uf', hfind, hcomp⟩ := findSet_root hi
    exact ⟨r, uf', hfind, hi, hcomp.rootOf_iff h.isForest⟩
  · obtain ⟨same, uf', hin, hsame, -⟩ := inSameSet_spec h.isForest i j
    exact ⟨same, uf', hin, hsame.trans (h.sameRoot i j)⟩

/-- Ranks as they may come out of `malloc`, and two pairs united. -/
theorem unionFind_connectivity_four :
    ∃ uf₀ : Ufds 4, unionFind (some 9) (some fun _ => 7) (some fun _ => 7) (some fun _ => 7) =
      some uf₀ ∧ ∃ uf same uf', run uf₀ [.unionSet 0 1, .unionSet 1 2] = some uf ∧
        inSameSet 0 2 uf = some (same, uf') ∧ same = true := by
  have hnew : unionFind (n := 4) (some 9) (some fun _ => 7) (some fun _ => 7) (some fun _ => 7) =
      some ⟨memsetInts fun _ => 7, fun i => i, memsetInts fun _ => 7, 9⟩ := rfl
  obtain ⟨uf, hrun, -, -, hsame⟩ :=
    unionFind_connectivity hnew (memsetInts fun _ => 7) [.unionSet 0 1, .unionSet 1 2]
  obtain ⟨same, uf', hin, hiff⟩ := hsame 0 2
  refine ⟨_, hnew, uf, same, uf', hrun, hin, hiff.mpr ?_⟩
  exact .trans 0 1 2 (.rel _ _ (by simp [United])) (.rel _ _ (by simp [United]))

/-! ## Ranks -/

/-- The rank of each root is at least the height of its tree. -/
def RanksBound (uf : Ufds n) : Prop :=
  ∀ x k r, Climb uf.parent x k r → (k : ℤ) ≤ (uf.rank r).toInt

/-- A tree of `m` elements has height at most `log2 m`. -/
def LogHeights (uf : Ufds n) : Prop :=
  ∀ x k r, Climb uf.parent x k r → 2 ^ k ≤ {y | RootOf uf.parent y r}.ncard

/-- No root has a rank: it is the rank of the other element that grows. -/
def RootsFlat (uf : Ufds n) : Prop := ∀ r, uf.parent r = r → uf.rank r = 0

theorem RootsFlat.compressed {uf uf' : Ufds n} (h : RootsFlat uf) (hf : IsForest uf.parent)
    (hc : Compressed uf uf') : RootsFlat uf' := fun r hr => by
  rw [hc.rank]
  exact h r (hc.isRoot hf hr)

theorem RootsFlat.link {uf : Ufds n} (h : RootsFlat uf) {ri rj : Fin n} (hi : uf.parent ri = ri)
    (hj : uf.parent rj = rj) (hne : ri ≠ rj) : RootsFlat (link ri rj uf) := by
  intro r hr
  have heq : uf.rank ri = uf.rank rj := (h ri hi).trans (h rj hj).symm
  have hslt : (uf.rank ri).slt (uf.rank rj) = false := by
    rw [heq, BitVec.slt_eq_decide]
    exact decide_eq_false (lt_irrefl _)
  unfold UnionFind.link at hr ⊢
  rw [hslt, if_neg Bool.false_ne_true, if_pos heq] at hr ⊢
  have hr : Function.update uf.parent rj ri r = r := hr
  have hrj : r ≠ rj := by
    rintro rfl
    rw [Function.update_self] at hr
    exact hne hr
  rw [Function.update_of_ne hrj] at hr
  show Function.update uf.rank rj _ r = 0
  rw [Function.update_of_ne hrj, h r hr]

theorem step_flat {uf uf' : Ufds n} (h : RootsFlat uf) (hf : IsForest uf.parent) {op : Op n}
    (hrun : step uf op = some uf') : RootsFlat uf' := by
  cases op with
  | unionSet i j =>
    obtain ⟨uf₁, hrun₁, ⟨-, hcomp⟩ | ⟨mid, ri, rj, hcomp, hi, hj, hne, rfl⟩⟩ :=
      unionSet_cases hf i j
    · obtain rfl := Option.some.inj (hrun₁.symm.trans hrun)
      exact h.compressed hf hcomp
    · obtain rfl := Option.some.inj (hrun₁.symm.trans hrun)
      exact (h.compressed hf hcomp).link hi.isRoot hj.isRoot hne
  | inSameSet i j =>
    obtain ⟨same, uf₁, hrun₁, -, hcomp⟩ := inSameSet_spec hf i j
    rw [step, hrun₁] at hrun
    obtain rfl := Option.some.inj hrun
    exact h.compressed hf hcomp
  | findSet i =>
    obtain ⟨r, hi⟩ := hf i
    obtain ⟨uf₁, hrun₁, hcomp⟩ := findSet_root hi
    rw [step, hrun₁] at hrun
    obtain rfl := Option.some.inj hrun
    exact h.compressed hf hcomp

theorem run_flat {uf uf' : Ufds n} {united : Fin n → Fin n → Prop} (h : RootsFlat uf)
    (ht : Tracks uf united) {ops : List (Op n)} (hrun : run uf ops = some uf') :
    RootsFlat uf' := by
  induction ops generalizing uf united with
  | nil =>
    obtain rfl := Option.some.inj hrun
    exact h
  | cons op ops ih =>
    obtain ⟨uf₁, hstep, ht₁⟩ := step_tracks ht op
    rw [run, List.foldlM_cons, hstep] at hrun
    exact ih (step_flat h ht.isForest hstep) ht₁ hrun

/-- Trees of height zero are those of a union-find in which nothing is connected. -/
theorem flat_iff_discrete {uf : Ufds n} {united : Fin n → Fin n → Prop} (ht : Tracks uf united) :
    (∀ x k r, Climb uf.parent x k r → k = 0) ↔ ∀ i j, united i j → i = j := by
  constructor
  · intro hflat i j hij
    obtain ⟨r, ⟨k, hi⟩, k', hj⟩ := (ht.sameRoot i j).mpr (.rel _ _ hij)
    obtain rfl := hflat _ _ _ hi
    obtain rfl := hflat _ _ _ hj
    cases hi
    cases hj
    rfl
  · intro hdiscrete x k r hx
    cases hx with
    | root => rfl
    | @up _ _ k hne hup =>
      have hsame : SameRoot uf.parent x (uf.parent x) := ⟨r, ⟨k + 1, .up hne hup⟩, k, hup⟩
      have heq : ∀ a b, Relation.EqvGen united a b → a = b := by
        intro a b hab
        induction hab with
        | rel a b hrel => exact hdiscrete a b hrel
        | refl => rfl
        | symm _ _ _ ih => exact ih.symm
        | trans _ _ _ _ _ ih ih' => exact ih.trans ih'
      exact absurd (heq _ _ ((ht.sameRoot _ _).mp hsame)).symm hne

/-- **The ranks bound the heights exactly of untouched elements.** With all ranks zero, after a
    sequence of calls the ranks of the roots bound the heights of their trees, and with them the
    logarithms of their sizes do, exactly if every `unionSet` was called with one element twice. -/
theorem ranks_bound_iff (size : Fin n → BitVec 32) (numSets : BitVec 32) (ops : List (Op n)) :
    ∃ uf, run { rank := fun _ => 0, parent := fun i => i, size, numSets } ops = some uf ∧
      (RanksBound uf ∧ LogHeights uf ↔ ∀ i j, Op.unionSet i j ∈ ops → i = j) := by
  have hinit : Tracks { rank := fun _ => 0, parent := fun i => i, size, numSets : Ufds n }
      fun _ _ => False := .init fun _ => rfl
  obtain ⟨uf, hrun, ht⟩ := run_tracks hinit ops
  have hflat := run_flat (fun _ _ => rfl) hinit hrun
  simp only [false_or] at ht
  refine ⟨uf, hrun, ?_⟩
  rw [← show (∀ i j, United ops i j → i = j) ↔ ∀ i j, Op.unionSet i j ∈ ops → i = j from Iff.rfl,
    ← flat_iff_discrete ht]
  constructor
  · rintro ⟨hrank, -⟩ x k r hx
    have hle := hrank x k r hx
    rw [hflat r hx.isRoot] at hle
    have hzero : (0 : BitVec 32).toInt = 0 := rfl
    omega
  · intro hzero
    refine ⟨fun x k r hx => ?_, fun x k r hx => ?_⟩
    · rw [hzero x k r hx, hflat r hx.isRoot]
      exact le_rfl
    · rw [hzero x k r hx, pow_zero, Nat.one_le_iff_ne_zero]
      exact Set.ncard_ne_zero_of_mem (a := r) (RootOf.self hx.isRoot) (Set.toFinite _)

/-- Three elements in a chain under a root of rank zero. -/
theorem ranks_below_height : ∃ uf : Ufds 3,
    run { rank := fun _ => 0, parent := fun i => i, size := fun _ => 0, numSets := 3 }
      [.unionSet 1 0, .unionSet 2 1] = some uf ∧ Climb uf.parent 0 2 2 ∧ uf.rank 2 = 0 := by
  have hrun : (run { rank := fun _ => 0, parent := fun i => i, size := fun _ => 0, numSets := 3 }
      [.unionSet 1 0, .unionSet 2 1] : Option (Ufds 3)).map (fun uf =>
        (uf.parent 0, uf.parent 1, uf.parent 2, uf.rank 2)) = some (1, 2, 2, 0) := by
    decide +kernel
  obtain ⟨uf, huf, hfields⟩ := Option.map_eq_some_iff.mp hrun
  obtain ⟨h0, h1, h2, hrank⟩ : uf.parent 0 = 1 ∧ uf.parent 1 = 2 ∧ uf.parent 2 = 2 ∧
      uf.rank 2 = 0 := by simpa only [Prod.mk.injEq] using hfields
  have h1' : Climb uf.parent 1 1 2 := .up (by rw [h1]; decide) (by rw [h1]; exact .root h2)
  exact ⟨uf, huf, .up (by rw [h0]; decide) (by rw [h0]; exact h1'), hrank⟩

end HorizonOS.Libc.UnionFind
