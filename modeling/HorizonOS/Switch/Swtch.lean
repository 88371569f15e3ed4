import HorizonOS.Switch.Clone

/-!
# `swtch`, `clone_parent_base_frame` and the first frame of a process

Models of `arch/x86_64/asm/swtch.S` and of `init_stack`
(kernel/scheduler/process.c:75–112). The assembly is embedded instruction by
instruction over a register file and a byte memory; `call` and `ret` move the
return address through memory like any other word.

A frame that `swtch` can resume is a `SwtchFrame`: six saved registers, `r15`
lowest, and a return address. It is built in three places.

* `swtch_saves`: `swtch` leaves one for the process it switches out.
* `initStack_frame`: `init_stack` leaves one that enters the process.
* `cloneParentBaseFrame_child`: `clone_parent_base_frame` leaves one for the
  child, which returns 0 from the same call.

It is consumed in one.

* `swtch_resumes`: `swtch` into a frame restores its registers and jumps to its
  return address.
-/

namespace HorizonOS.Switch

open HorizonOS.Lib HorizonOS.Libc HorizonOS.Proc

/-! ## Machine -/

/-- The registers a function must preserve, other than `rsp`. -/
structure CalleeSaved where
  rbp : Word
  rbx : Word
  r12 : Word
  r13 : Word
  r14 : Word
  r15 : Word
deriving DecidableEq

/-- The part of the processor state that `swtch.S` reads and writes. -/
structure Cpu where
  saved : CalleeSaved
  rsp : Addr
  rax : Word
  rip : Word
  cr3 : Word
  mem : Mem

namespace Cpu

/-- `push`. -/
def push (c : Cpu) (w : Word) : Cpu :=
  { c with rsp := c.rsp - 8#64, mem := c.mem.store (c.rsp - 8#64) w }

theorem push_rsp_sub (c : Cpu) (w n : Word) : (c.push w).rsp - n = c.rsp - (8#64 + n) := sub_sub _ _ _

/-- The word on top of the stack. -/
def top (c : Cpu) : Word := c.mem.load c.rsp

/-- `add $8, %rsp`. -/
def drop (c : Cpu) : Cpu := { c with rsp := c.rsp + 8#64 }

/-- `ret`. -/
def ret (c : Cpu) : Cpu := { c.drop with rip := c.top }

def popRbp (c : Cpu) : Cpu := { c.drop with saved := { c.saved with rbp := c.top } }
def popRbx (c : Cpu) : Cpu := { c.drop with saved := { c.saved with rbx := c.top } }
def popR12 (c : Cpu) : Cpu := { c.drop with saved := { c.saved with r12 := c.top } }
def popR13 (c : Cpu) : Cpu := { c.drop with saved := { c.saved with r13 := c.top } }
def popR14 (c : Cpu) : Cpu := { c.drop with saved := { c.saved with r14 := c.top } }
def popR15 (c : Cpu) : Cpu := { c.drop with saved := { c.saved with r15 := c.top } }

/-- `push %rbp … push %r15` (swtch.S:6–11 and 38–43). -/
def pushSaved (c : Cpu) : Cpu :=
  (((((c.push c.saved.rbp).push c.saved.rbx).push c.saved.r12).push c.saved.r13).push
    c.saved.r14).push c.saved.r15

/-- `pop %r15 … pop %rbp` (swtch.S:19–24 and 50–55). -/
def popSaved (c : Cpu) : Cpu := c.popR15.popR14.popR13.popR12.popRbx.popRbp

end Cpu

/-! ## Model of `swtch.S` -/

/-- `swtch(old_sp, new_sp, new_cr3)` (swtch.S:4–25), entered with the return
    address on the stack. Returns the state at the resumed return address and
    the word stored through `old_sp`. -/
def swtch (c : Cpu) (newSp : Addr) (newCr3 : Word) : Cpu × Addr :=
  let c := c.pushSaved
  let oldSp := c.rsp
  let c := { c with rsp := newSp, cr3 := newCr3 }
  (c.popSaved.ret, oldSp)

/-- `fork_child_resume` (swtch.S:61–64). -/
def forkChildResume (c : Cpu) : Cpu := { c with rax := 0 }.ret

/-- The code addresses the frames mention: the entry of `forkret`, the label
    `fork_child_resume`, and the return address of the call of
    `clone_stack_rebased`. -/
structure Labels where
  forkret : Word
  forkChildResume : Word
  cloneReturn : Word

/-- The first half of `clone_parent_base_frame(child)` (swtch.S:34–48), up to the
    call of `clone_stack_rebased`: the snapshot is on the stack, and `rsp` is the
    address passed on. -/
def cloneSnapshot (L : Labels) (c : Cpu) : Cpu :=
  ({ c with rax := L.forkChildResume }.push L.forkChildResume).pushSaved

/-- `clone_parent_base_frame(child)` (swtch.S:33–59), run by `parent` and entered
    with the return address on the stack. `none` when `clone_stack_rebased` does
    not return. -/
def cloneParentBaseFrame (L : Labels) (fuel : ℕ) (c : Cpu) (parent child : Process) :
    Option (Cpu × Process) := do
  let c := cloneSnapshot L c
  let frame := c.rsp
  let c := c.push L.cloneReturn
  let (m, child) ← cloneStackRebased fuel c.mem parent child frame
  let c := { c with mem := m }.ret
  let c := c.popSaved.drop
  some ({ c with rax := 1 }.ret, child)

/-- `init_stack(p, entry)` (process.c:75–112) on the region that `alloc_stack`
    returned: `stack_p[-1] = 0`, `stack_p[-2] = entry`, `stack_p[-3] = … =
    stack_p[-8] = 0`. -/
def initStack (m : Mem) (p : Process) (r : VmRegion) (entry : Word) : Mem × Process :=
  let m := m.store (r.stop - 8#64) 0
  let m := m.store (r.stop - 16#64) entry
  let m := m.store (r.stop - 24#64) 0
  let m := m.store (r.stop - 32#64) 0
  let m := m.store (r.stop - 40#64) 0
  let m := m.store (r.stop - 48#64) 0
  let m := m.store (r.stop - 56#64) 0
  let m := m.store (r.stop - 64#64) 0
  (m, { p with sp := r.stop - 64#64 })

/-! ## Frames -/

/-- At `sp` lies a frame that `swtch` can resume: the registers `r`, then the
    return address. -/
structure SwtchFrame (m : Mem) (sp : Addr) (r : CalleeSaved) (ret : Word) : Prop where
  r15 : m.load sp = r.r15
  r14 : m.load (sp + 8#64) = r.r14
  r13 : m.load (sp + 16#64) = r.r13
  r12 : m.load (sp + 24#64) = r.r12
  rbx : m.load (sp + 32#64) = r.rbx
  rbp : m.load (sp + 40#64) = r.rbp
  ret : m.load (sp + 48#64) = ret

/-- The six stores that build the registers of a frame at `sp`, `rbp` first. -/
def writeSaved (m : Mem) (sp : Addr) (r : CalleeSaved) : Mem :=
  (((((m.store (sp + 40#64) r.rbp).store (sp + 32#64) r.rbx).store (sp + 24#64) r.r12).store (sp + 16#64)
    r.r13).store (sp + 8#64) r.r14).store (sp + 0#64) r.r15

theorem writeSaved_apply {m : Mem} {sp b : Addr} {r : CalleeSaved} (h : ¬ Within sp 48 b) :
    writeSaved m sp r b = m b := by
  have hk : ∀ k : ℕ, k + 8 ≤ 48 → ¬ Within (sp + BitVec.ofNat 64 k) 8 b := fun k hk hw =>
    h (within_of_within_add hw hk (by norm_num))
  unfold writeSaved
  rw [Mem.store_apply_of_not_within (hk 0 (by norm_num)),
    Mem.store_apply_of_not_within (hk 8 (by norm_num)),
    Mem.store_apply_of_not_within (hk 16 (by norm_num)),
    Mem.store_apply_of_not_within (hk 24 (by norm_num)),
    Mem.store_apply_of_not_within (hk 32 (by norm_num)),
    Mem.store_apply_of_not_within (hk 40 (by norm_num))]

/-- The words above the six registers are not written. -/
theorem writeSaved_load_above (m : Mem) (sp : Addr) (r : CalleeSaved) {k : ℕ} (h1 : 48 ≤ k)
    (h2 : k < 2 ^ 32) :
    (writeSaved m sp r).load (sp + BitVec.ofNat 64 k) = m.load (sp + BitVec.ofNat 64 k) := by
  apply Mem.load_congr
  intro i hi
  apply writeSaved_apply
  unfold Within
  bv_omega

theorem writeSaved_frame {m : Mem} {sp : Addr} {r : CalleeSaved} {ret : Word}
    (hret : m.load (sp + 48#64) = ret) : SwtchFrame (writeSaved m sp r) sp r ret := by
  -- words at distinct offsets of `sp` are disjoint
  have hd : ∀ {x y : Addr} {μ : Mem} {w : Word}, Mem.Disjoint x y →
      (μ.store (sp + x) w).load (sp + y) = μ.load (sp + y) := fun h =>
    Mem.load_store_of_disjoint (Mem.disjoint_add_left_iff.mpr h)
  have hsp : sp = sp + 0#64 := (add_zero sp).symm
  constructor
  · rw [hsp]; simp [writeSaved]
  · unfold writeSaved; rw [hd (by decide), Mem.load_store_self]
  · unfold writeSaved; rw [hd (by decide), hd (by decide), Mem.load_store_self]
  · unfold writeSaved; rw [hd (by decide), hd (by decide), hd (by decide), Mem.load_store_self]
  · unfold writeSaved
    rw [hd (by decide), hd (by decide), hd (by decide), hd (by decide), Mem.load_store_self]
  · unfold writeSaved
    rw [hd (by decide), hd (by decide), hd (by decide), hd (by decide), hd (by decide),
      Mem.load_store_self]
  · rw [← hret]
    exact writeSaved_load_above m sp r (k := 48) (by norm_num) (by norm_num)

namespace SwtchFrame

variable {m m' : Mem} {sp : Addr} {r : CalleeSaved} {ret : Word}

/-- A frame only depends on its 56 bytes. -/
theorem congr (h : SwtchFrame m sp r ret)
    (hm : ∀ k < 56, m' (sp + BitVec.ofNat 64 k) = m (sp + BitVec.ofNat 64 k)) :
    SwtchFrame m' sp r ret := by
  have hw : ∀ k : ℕ, k + 8 ≤ 56 →
      m'.load (sp + BitVec.ofNat 64 k) = m.load (sp + BitVec.ofNat 64 k) := by
    intro k hk
    apply Mem.load_congr
    intro i hi
    rw [add_assoc, ← BitVec.ofNat_add]
    exact hm (k + i) (by omega)
  have h0 : m'.load sp = m.load sp := by simpa using hw 0 (by norm_num)
  exact ⟨h0.trans h.r15, (hw 8 (by norm_num)).trans h.r14, (hw 16 (by norm_num)).trans h.r13,
    (hw 24 (by norm_num)).trans h.r12, (hw 32 (by norm_num)).trans h.rbx,
    (hw 40 (by norm_num)).trans h.rbp, (hw 48 (by norm_num)).trans h.ret⟩

end SwtchFrame

namespace Cpu

theorem pushSaved_eq (c : Cpu) :
    c.pushSaved =
      { c with rsp := c.rsp - 48#64, mem := writeSaved c.mem (c.rsp - 48#64) c.saved } := by
  have e0 : c.rsp - 8#64 = c.rsp - 48#64 + 40#64 := by bv_omega
  have e1 : ∀ b : Addr, b + 40#64 - 8#64 = b + 32#64 := fun b => by bv_omega
  have e2 : ∀ b : Addr, b + 32#64 - 8#64 = b + 24#64 := fun b => by bv_omega
  have e3 : ∀ b : Addr, b + 24#64 - 8#64 = b + 16#64 := fun b => by bv_omega
  have e4 : ∀ b : Addr, b + 16#64 - 8#64 = b + 8#64 := fun b => by bv_omega
  have e5 : ∀ b : Addr, b + 8#64 - 8#64 = b + 0#64 := fun b => by bv_omega
  have e6 : ∀ b : Addr, b + 0#64 = b := add_zero
  simp only [pushSaved, push, e0, e1, e2, e3, e4, e5, writeSaved]
  simp only [e6]

theorem popSaved_eq {c : Cpu} {r : CalleeSaved} {ret : Word}
    (h : SwtchFrame c.mem c.rsp r ret) :
    c.popSaved = { c with rsp := c.rsp + 48#64, saved := r } := by
  have e1 : c.rsp + 8#64 + 8#64 = c.rsp + 16#64 := by bv_omega
  have e2 : c.rsp + 16#64 + 8#64 = c.rsp + 24#64 := by bv_omega
  have e3 : c.rsp + 24#64 + 8#64 = c.rsp + 32#64 := by bv_omega
  have e4 : c.rsp + 32#64 + 8#64 = c.rsp + 40#64 := by bv_omega
  have e5 : c.rsp + 40#64 + 8#64 = c.rsp + 48#64 := by bv_omega
  simp only [popSaved, popR15, popR14, popR13, popR12, popRbx, popRbp, drop, top, e1, e2, e3, e4,
    e5, h.r15, h.r14, h.r13, h.r12, h.rbx, h.rbp]

/-- Popping what was pushed gives the registers back. -/
theorem popSaved_of_frame {c : Cpu} {m : Mem} {r : CalleeSaved} {ret : Word}
    (h : SwtchFrame m c.rsp r ret) (hm : c.mem = m) :
    c.popSaved.ret = { c with rsp := c.rsp + 56#64, saved := r, rip := ret } := by
  subst hm
  rw [popSaved_eq h]
  simp only [Cpu.ret, drop, top, h.ret, add_assoc]
  rfl

end Cpu

/-! ## `swtch` -/

section Swtch

variable {c : Cpu} {newSp : Addr} {newCr3 ret : Word}

theorem swtch_snd : (swtch c newSp newCr3).2 = c.rsp - 48#64 := by
  simp only [swtch, Cpu.pushSaved_eq]

/-- `swtch` leaves a frame that resumes the process it switches out. -/
theorem swtch_saves (hret : c.top = ret) :
    SwtchFrame (writeSaved c.mem (c.rsp - 48#64) c.saved) (c.rsp - 48#64) c.saved ret := by
  apply writeSaved_frame
  rw [← hret, Cpu.top]
  congr 1
  bv_omega

/-- `swtch` into a frame restores its registers, pops it, and jumps to its return
    address on the new page tables. -/
theorem swtch_resumes {r : CalleeSaved}
    (h : SwtchFrame (writeSaved c.mem (c.rsp - 48#64) c.saved) newSp r ret) :
    (swtch c newSp newCr3).1 =
      { saved := r, rsp := newSp + 56#64, rax := c.rax, rip := ret, cr3 := newCr3,
        mem := writeSaved c.mem (c.rsp - 48#64) c.saved } := by
  simp only [swtch, Cpu.pushSaved_eq]
  exact Cpu.popSaved_of_frame h rfl

end Swtch

/-! ## `init_stack` -/

/-- Every register of a process that has never run is 0. -/
def zeroSaved : CalleeSaved := ⟨0, 0, 0, 0, 0, 0⟩

theorem initStack_eq (m : Mem) (p : Process) (r : VmRegion) (entry : Word) :
    initStack m p r entry =
      (writeSaved ((m.store (r.stop - 64#64 + 56#64) 0).store (r.stop - 64#64 + 48#64) entry)
        (r.stop - 64#64) zeroSaved, { p with sp := r.stop - 64#64 }) := by
  have e : ∀ b : Addr, b - 8#64 = b - 64#64 + 56#64 ∧ b - 16#64 = b - 64#64 + 48#64 ∧
      b - 24#64 = b - 64#64 + 40#64 ∧ b - 32#64 = b - 64#64 + 32#64 ∧
      b - 40#64 = b - 64#64 + 24#64 ∧ b - 48#64 = b - 64#64 + 16#64 ∧
      b - 56#64 = b - 64#64 + 8#64 ∧ b - 64#64 = b - 64#64 + 0#64 := fun b => by
    refine ⟨?_, ?_, ?_, ?_, ?_, ?_, ?_, ?_⟩ <;> bv_omega
  obtain ⟨e1, e2, e3, e4, e5, e6, e7, e8⟩ := e r.stop
  simp only [initStack, writeSaved, zeroSaved, e1, e2, e3, e4, e5, e6, e7, ← e8]

/-- `init_stack` leaves a frame that enters the process with zero registers. -/
theorem initStack_frame (m : Mem) (p : Process) (r : VmRegion) (entry : Word) :
    SwtchFrame (initStack m p r entry).1 (r.stop - 64#64) zeroSaved entry := by
  rw [initStack_eq]
  exact writeSaved_frame (Mem.load_store_self _ _ _)

/-- `init_stack` writes only the eight words at the end of the stack. -/
theorem initStack_apply {m : Mem} {p : Process} {r : VmRegion} {entry : Word} {b : Addr}
    (h : ¬ Within (r.stop - 64#64) 64 b) : (initStack m p r entry).1 b = m b := by
  have hk : ∀ k n : ℕ, k + n ≤ 64 → ¬ Within (r.stop - 64#64 + BitVec.ofNat 64 k) n b :=
    fun k n hk hw => h (within_of_within_add hw hk (by norm_num))
  rw [initStack_eq]
  simp only
  rw [writeSaved_apply (by simpa using hk 0 48 (by norm_num)),
    Mem.store_apply_of_not_within (hk 48 8 (by norm_num)),
    Mem.store_apply_of_not_within (hk 56 8 (by norm_num))]

/-! ## `clone_parent_base_frame` -/

section Clone

variable {L : Labels} {c : Cpu} {parent child : Process} {rp rc : VmRegion}

/-- The memory when `clone_stack_rebased` is entered: the snapshot, and below it
    the return address of that call. -/
def cloneCallMem (L : Labels) (c : Cpu) : Mem := ((cloneSnapshot L c).push L.cloneReturn).mem

theorem cloneSnapshot_eq :
    cloneSnapshot L c =
      { c with
        rax := L.forkChildResume
        rsp := c.rsp - 56#64
        mem := writeSaved (c.mem.store (c.rsp - 8#64) L.forkChildResume) (c.rsp - 56#64) c.saved } := by
  have e : c.rsp - 8#64 - 48#64 = c.rsp - 56#64 := by bv_omega
  rw [cloneSnapshot, Cpu.pushSaved_eq]
  simp only [Cpu.push, e]

/-- The snapshot is a frame that resumes at `fork_child_resume`. -/
theorem cloneCallMem_frame :
    SwtchFrame (cloneCallMem L c) (c.rsp - 56#64) c.saved L.forkChildResume := by
  have e : c.rsp - 56#64 + 48#64 = c.rsp - 8#64 := by bv_omega
  rw [cloneCallMem, cloneSnapshot_eq]
  apply (writeSaved_frame (m := c.mem.store (c.rsp - 8#64) L.forkChildResume)
    (by rw [e, Mem.load_store_self])).congr
  intro k hk
  apply Mem.store_apply_of_not_within
  unfold Within
  bv_omega

/-- Above the snapshot lies the return address of `clone_parent_base_frame`. -/
theorem cloneCallMem_ret : (cloneCallMem L c).load (c.rsp - 56#64 + 56#64) = c.top := by
  rw [cloneCallMem, cloneSnapshot_eq]
  simp only [Cpu.push]
  rw [Mem.load_store_of_disjoint (by constructor <;> bv_omega),
    writeSaved_load_above _ _ _ (k := 56) (by norm_num) (by norm_num), Cpu.top,
    Mem.load_store_of_disjoint (by constructor <;> bv_omega)]
  congr 1
  bv_omega

/-- Only the 64 bytes below the return address are written before the call. -/
theorem cloneCallMem_apply {b : Addr} (h : ¬ Within (c.rsp - 64#64) 64 b) :
    cloneCallMem L c b = c.mem b := by
  have hk : ∀ k n : ℕ, k + n ≤ 64 → ¬ Within (c.rsp - 64#64 + BitVec.ofNat 64 k) n b :=
    fun k n hk hw => h (within_of_within_add hw hk (by norm_num))
  have e1 : c.rsp - 56#64 = c.rsp - 64#64 + 8#64 := by bv_omega
  have e2 : c.rsp - 8#64 = c.rsp - 64#64 + 56#64 := by bv_omega
  have e3 : c.rsp - 56#64 - 8#64 = c.rsp - 64#64 := by bv_omega
  rw [cloneCallMem, cloneSnapshot_eq]
  simp only [Cpu.push, e3]
  rw [Mem.store_apply_of_not_within (by simpa using hk 0 8 (by norm_num)), e1,
    writeSaved_apply (hk 8 48 (by norm_num)), e2,
    Mem.store_apply_of_not_within (hk 56 8 (by norm_num))]

/-- The call as the parent sees it: once `clone_stack_rebased` has returned with
    the parent's stack untouched, the parent returns 1 with its registers as they
    were. -/
theorem cloneParentBaseFrame_parent {fuel : ℕ} {m' : Mem} {child' : Process}
    (hclone : cloneStackRebased fuel (cloneCallMem L c) parent child (c.rsp - 56#64) =
      some (m', child'))
    (hsame : ∀ k < 64, m' (c.rsp - 56#64 + BitVec.ofNat 64 k) =
      cloneCallMem L c (c.rsp - 56#64 + BitVec.ofNat 64 k)) :
    cloneParentBaseFrame L fuel c parent child =
      some ({ c with rsp := c.rsp + 8#64, rax := 1, rip := c.top, mem := m' }, child') := by
  have hframe : SwtchFrame m' (c.rsp - 56#64) c.saved L.forkChildResume :=
    cloneCallMem_frame.congr fun k hk => hsame k (by omega)
  have hret : m'.load (c.rsp - 56#64 + 56#64) = c.top := by
    rw [← cloneCallMem_ret (L := L)]
    apply Mem.load_congr
    intro i hi
    rw [add_assoc, ← BitVec.ofNat_add]
    exact hsame (56 + i) (by omega)
  have e1 : c.rsp - 56#64 - 8#64 + 8#64 = c.rsp - 56#64 := by bv_omega
  have e2 : c.rsp - 56#64 + 48#64 + 8#64 = c.rsp - 56#64 + 56#64 := by bv_omega
  have e3 : c.rsp - 56#64 + 56#64 + 8#64 = c.rsp + 8#64 := by bv_omega
  have hmem : ((cloneSnapshot L c).push L.cloneReturn).mem = cloneCallMem L c := rfl
  have hsp : (cloneSnapshot L c).rsp = c.rsp - 56#64 := by rw [cloneSnapshot_eq]
  simp only [cloneParentBaseFrame, hmem, hsp, hclone, Option.bind_eq_bind, Option.bind_some]
  rw [← e1] at hframe
  rw [cloneSnapshot_eq]
  simp only [Cpu.push, Cpu.ret, Cpu.drop]
  rw [Cpu.popSaved_eq hframe]
  simp only [Cpu.top, e1, e2, e3, hret]

/-- The registers the child resumes with: those of the parent, with the frame
    pointer moved along with the stack. -/
def childSaved (r : CalleeSaved) (frame top delta : Addr) : CalleeSaved :=
  { r with rbp := if frame ≤ r.rbp ∧ r.rbp < top then r.rbp + delta else r.rbp }

/-- `clone_parent_base_frame` returns 1 in the parent with its registers as they
    were, and leaves in the child's stack a frame that resumes at
    `fork_child_resume`, with the parent's return address above it. -/
theorem cloneParentBaseFrame_child (hp : findStack parent = some rp) (hc : findStack child = some rc)
    (h : StackPair rp rc (c.rsp - 56#64)) (hlow : 56 ≤ c.rsp.toNat)
    (htop : c.rsp.toNat + 8 ≤ rp.stop.toNat) {slots : List Addr} {e : Word}
    (hchain : FpChain (cloneCallMem L c) (c.rsp - 56#64) rp.stop
      (c.rsp - 56#64 + BitVec.ofNat 64 (8 * forkFrameFpSlot)) slots e)
    (hlabel : ¬ (c.rsp - 56#64 ≤ L.forkChildResume ∧ L.forkChildResume < rp.stop))
    (hret : ¬ (c.rsp - 56#64 ≤ c.top ∧ c.top < rp.stop)) :
    ∃ m' : Mem,
      (∀ fuel, slots.length ≤ fuel →
        cloneParentBaseFrame L fuel c parent child =
          some ({ c with rsp := c.rsp + 8#64, rax := 1, rip := c.top, mem := m' },
            { child with sp := c.rsp - 56#64 + (rc.stop - rp.stop) })) ∧
      SwtchFrame m' (c.rsp - 56#64 + (rc.stop - rp.stop))
        (childSaved c.saved (c.rsp - 56#64) rp.stop (rc.stop - rp.stop)) L.forkChildResume ∧
      m'.load (c.rsp - 56#64 + (rc.stop - rp.stop) + 56#64) = c.top ∧
      ∀ b, ¬ (c.rsp - 56#64 + (rc.stop - rp.stop) ≤ b ∧ b < rc.stop) →
        m' b = cloneCallMem L c b := by
  have hframe : SwtchFrame (cloneCallMem L c) (c.rsp - 56#64) c.saved L.forkChildResume :=
    cloneCallMem_frame
  have hretw : (cloneCallMem L c).load (c.rsp - 56#64 + 56#64) = c.top := cloneCallMem_ret
  have hnat : (c.rsp - 56#64).toNat = c.rsp.toNat - 56 := by bv_omega
  generalize hF : c.rsp - 56#64 = frame at *
  generalize hδ : rc.stop - rp.stop = delta at *
  obtain ⟨m', hrun, hslots, hwords, hout⟩ := cloneStackRebased_eq hp hc h hchain
  rw [hδ] at hrun hslots hwords hout
  have hlt := rp.stop.isLt
  -- the eight words of the snapshot and the return address lie in the copied range
  have hword : ∀ k : ℕ, k < 64 → (frame + BitVec.ofNat 64 k).toNat = frame.toNat + k := fun k hk =>
    toNat_add_ofNat (by omega)
  have hal : frame.toNat % 8 = 0 := by
    have h1 := (hchain.bounds _ hchain.head_mem).2.2
    rw [hword _ (by norm_num [forkFrameFpSlot])] at h1
    simp only [forkFrameFpSlot] at h1
    omega
  have hin : ∀ k : ℕ, k < 64 → k % 8 = 0 → frame ≤ frame + BitVec.ofNat 64 k ∧
      frame + BitVec.ofNat 64 k < rp.stop ∧ (frame + BitVec.ofNat 64 k).toNat % 8 = 0 := by
    intro k hk hk8
    rw [BitVec.le_def, BitVec.lt_def, hword k hk]
    omega
  -- the words below the frame pointer are no slots of the chain
  have hcopy : ∀ k : ℕ, k < 40 → k % 8 = 0 →
      m'.load (frame + delta + BitVec.ofNat 64 k) =
        (cloneCallMem L c).load (frame + BitVec.ofNat 64 k) := by
    intro k hk hk8
    obtain ⟨h1, h2, h3⟩ := hin k (by omega) hk8
    rw [add_right_comm]
    refine hwords _ h1 h2 h3 fun hmem => ?_
    have hle := hchain.head_le _ hmem
    rw [BitVec.le_def, hword _ (by norm_num [forkFrameFpSlot]), hword k (by omega)] at hle
    simp only [forkFrameFpSlot] at hle
    omega
  -- the words above it are code addresses, which the loop leaves alone
  have hcode : ∀ (k : ℕ) (w : Word), k < 64 → k % 8 = 0 →
      (cloneCallMem L c).load (frame + BitVec.ofNat 64 k) = w → ¬ (frame ≤ w ∧ w < rp.stop) →
      m'.load (frame + delta + BitVec.ofNat 64 k) = w := by
    intro k w hk hk8 hw hnot
    obtain ⟨h1, h2, h3⟩ := hin k hk hk8
    rw [add_right_comm]
    by_cases hmem : frame + BitVec.ofNat 64 k ∈ slots
    · rw [hslots _ hmem, rebased, hw, if_neg hnot]
    · rw [hwords _ h1 h2 h3 hmem, hw]
  refine ⟨m', ?_, ?_, hcode 56 _ (by norm_num) (by norm_num) hretw hret, hout⟩
  · intro fuel hf
    subst hF
    apply cloneParentBaseFrame_parent (hrun fuel hf)
    intro k hk
    apply hout
    rw [← hδ, ← h.copied_iff]
    have hlo := h.le_frame
    refine h.not_copied ?_ ?_
    · rw [BitVec.le_def] at *
      rw [hword k hk]
      omega
    · rw [BitVec.lt_def, hword k hk]
      omega
  · have h0 : m'.load (frame + delta) = (cloneCallMem L c).load frame := by
      simpa using hcopy 0 (by norm_num) (by norm_num)
    refine ⟨h0.trans hframe.r15, (hcopy 8 (by norm_num) (by norm_num)).trans hframe.r14,
      (hcopy 16 (by norm_num) (by norm_num)).trans hframe.r13,
      (hcopy 24 (by norm_num) (by norm_num)).trans hframe.r12,
      (hcopy 32 (by norm_num) (by norm_num)).trans hframe.rbx, ?_,
      hcode 48 _ (by norm_num) (by norm_num) hframe.ret hlabel⟩
    have hfp : (cloneCallMem L c).load (frame + BitVec.ofNat 64 (8 * forkFrameFpSlot)) =
        c.saved.rbp := hframe.rbp
    rw [childSaved, ← hfp]
    have := hslots _ hchain.head_mem
    rw [rebased, add_right_comm] at this
    exact this

end Clone

end HorizonOS.Switch
