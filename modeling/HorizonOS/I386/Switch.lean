import HorizonOS.Lib.PointerWalk
import HorizonOS.Switch.Swtch

/-!
# Switching on i386

Models of `arch/i386/asm/swtch.S` and of what `kernel/scheduler/process.c` does on i386, where
a word has four bytes. The scheduler sources are the same for both architectures.

Every address these routines use is word aligned as soon as the ends of the stacks are, so
memory is a function from the address of a word to the word.

* `swtch_initStack`: what the first `swtch` into a process finds. It pops four registers, and
  `init_stack` leaves room for six.
-/

namespace HorizonOS.I386.Switch

open HorizonOS.Lib HorizonOS.Proc

/-! ## Model -/

/-- The words of memory, by their address. -/
abbrev Mem := BitVec 32 → BitVec 32

/-- The part of the processor state that `swtch.S` reads and writes. -/
structure Cpu where
  ebp : BitVec 32
  ebx : BitVec 32
  esi : BitVec 32
  edi : BitVec 32
  esp : BitVec 32
  eip : BitVec 32
  cr3 : BitVec 32
  mem : Mem

namespace Cpu

/-- `push`. -/
def push (c : Cpu) (w : BitVec 32) : Cpu :=
  { c with esp := c.esp - 4#32, mem := Function.update c.mem (c.esp - 4#32) w }

/-- The word on top of the stack. -/
def top (c : Cpu) : BitVec 32 := c.mem c.esp

/-- `add $4, %esp`. -/
def drop (c : Cpu) : Cpu := { c with esp := c.esp + 4#32 }

def popEbp (c : Cpu) : Cpu := { c.drop with ebp := c.top }
def popEbx (c : Cpu) : Cpu := { c.drop with ebx := c.top }
def popEsi (c : Cpu) : Cpu := { c.drop with esi := c.top }
def popEdi (c : Cpu) : Cpu := { c.drop with edi := c.top }

/-- `ret`. -/
def ret (c : Cpu) : Cpu := { c.drop with eip := c.top }

/-- `push %ebp … push %edi` (swtch.S:12–15). -/
def pushSaved (c : Cpu) : Cpu := (((c.push c.ebp).push c.ebx).push c.esi).push c.edi

/-- `pop %edi … pop %ebp` (swtch.S:23–26). -/
def popSaved (c : Cpu) : Cpu := c.popEdi.popEsi.popEbx.popEbp

end Cpu

/-- `swtch` (swtch.S:4–27), entered with the return address and the three arguments on the stack:
    the address of the outgoing `context.sp`, the incoming `context.sp` and the new `cr3`. -/
def swtch (c : Cpu) : Cpu :=
  let eax := c.mem (c.esp + 4#32)
  let edx := c.mem (c.esp + 8#32)
  let ecx := c.mem (c.esp + 12#32)
  let c := c.pushSaved
  let c := { c with mem := Function.update c.mem eax c.esp, esp := edx, cr3 := ecx }
  c.popSaved.ret

/-- `init_stack(p, entry)` (process.c:75–112) on a stack that ends at `stop`: the memory and
    `p->context.sp`. -/
def initStack (m : Mem) (stop entry : BitVec 32) : Mem × BitVec 32 :=
  let m := Function.update m (stop - 4#32) 0
  let m := Function.update m (stop - 8#32) entry
  let m := Function.update m (stop - 12#32) 0
  let m := Function.update m (stop - 16#32) 0
  let m := Function.update m (stop - 20#32) 0
  let m := Function.update m (stop - 24#32) 0
  let m := Function.update m (stop - 28#32) 0
  let m := Function.update m (stop - 32#32) 0
  (m, stop - 32#32)

/-! ## The first switch into a process -/

/-- The words that `swtch` writes: the four registers on the outgoing stack, and the outgoing
    `context.sp`. -/
def written (c : Cpu) : List (BitVec 32) :=
  [c.esp - 4#32, c.esp - 8#32, c.esp - 12#32, c.esp - 16#32, c.mem (c.esp + 4#32)]

theorem add_four_add_four (b : BitVec 32) :
    b + 4#32 + 4#32 = b + 8#32 ∧ b + 8#32 + 4#32 = b + 12#32 ∧ b + 12#32 + 4#32 = b + 16#32 ∧
      b + 16#32 + 4#32 = b + 20#32 := by
  refine ⟨?_, ?_, ?_, ?_⟩ <;> rw [add_assoc] <;> rfl

theorem Cpu.pushSaved_mem (c : Cpu) : c.pushSaved.mem =
    Function.update (Function.update (Function.update (Function.update c.mem (c.esp - 4#32) c.ebp)
      (c.esp - 8#32) c.ebx) (c.esp - 12#32) c.esi) (c.esp - 16#32) c.edi := by
  have e2 : c.esp - 4#32 - 4#32 = c.esp - 8#32 := sub_sub _ _ _
  have e3 : c.esp - 8#32 - 4#32 = c.esp - 12#32 := sub_sub _ _ _
  have e4 : c.esp - 12#32 - 4#32 = c.esp - 16#32 := sub_sub _ _ _
  simp only [pushSaved, push, e2, e3, e4]

/-- `swtch` into a stack whose top five words it does not write. -/
theorem swtch_eq {c : Cpu} {sp : BitVec 32} (hsp : c.mem (c.esp + 8#32) = sp)
    (hout : ∀ i < 5, sp + BitVec.ofNat 32 (4 * i) ∉ written c) :
    let c' := swtch c
    c'.edi = c.mem sp ∧ c'.esi = c.mem (sp + 4#32) ∧ c'.ebx = c.mem (sp + 8#32) ∧
      c'.ebp = c.mem (sp + 12#32) ∧ c'.eip = c.mem (sp + 16#32) ∧ c'.esp = sp + 20#32 := by
  have hkeep : ∀ i < 5,
      Function.update c.pushSaved.mem (c.mem (c.esp + 4#32)) c.pushSaved.esp
        (sp + BitVec.ofNat 32 (4 * i)) = c.mem (sp + BitVec.ofNat 32 (4 * i)) := by
    intro i hi
    have hne := hout i hi
    simp only [written, List.mem_cons, List.not_mem_nil, or_false, not_or] at hne
    obtain ⟨h1, h2, h3, h4, h5⟩ := hne
    rw [Function.update_of_ne h5, Cpu.pushSaved_mem, Function.update_of_ne h4,
      Function.update_of_ne h3, Function.update_of_ne h2, Function.update_of_ne h1]
  obtain ⟨e1, e2, e3, e4⟩ := add_four_add_four sp
  have h0 := hkeep 0 (by norm_num)
  rw [Nat.mul_zero, BitVec.add_zero] at h0
  simp only [swtch, Cpu.popSaved, Cpu.popEdi, Cpu.popEsi, Cpu.popEbx, Cpu.popEbp, Cpu.ret, Cpu.drop,
    Cpu.top, hsp, e1, e2, e3, e4]
  exact ⟨h0, hkeep 1 (by norm_num), hkeep 2 (by norm_num), hkeep 3 (by norm_num),
    hkeep 4 (by norm_num), trivial⟩

/-- The words that `init_stack` leaves below the end of the stack. -/
theorem initStack_apply (m : Mem) (stop entry : BitVec 32) {i : ℕ} (h1 : 1 ≤ i) (h8 : i ≤ 8) :
    (initStack m stop entry).1 (stop - BitVec.ofNat 32 (4 * i)) = if i = 2 then entry else 0 := by
  have hne : ∀ j : ℕ, 1 ≤ j → j ≤ 8 → i ≠ j →
      stop - BitVec.ofNat 32 (4 * i) ≠ stop - BitVec.ofNat 32 (4 * j) := by
    intro j hj1 hj8 hij heq
    have h := congrArg BitVec.toNat (sub_right_injective heq)
    rw [BitVec.toNat_ofNat, BitVec.toNat_ofNat] at h
    omega
  have hlast : ∀ (μ : Mem) (j : ℕ) (v : BitVec 32), 1 ≤ j → j ≤ 8 →
      Function.update μ (stop - BitVec.ofNat 32 (4 * j)) v (stop - BitVec.ofNat 32 (4 * i)) =
        if i = j then v else μ (stop - BitVec.ofNat 32 (4 * i)) := by
    intro μ j v hj1 hj8
    split_ifs with hij
    · rw [hij, Function.update_self]
    · rw [Function.update_of_ne (hne j hj1 hj8 hij)]
  have hinit : (initStack m stop entry).1 = Function.update (Function.update (Function.update
      (Function.update (Function.update (Function.update (Function.update (Function.update m
      (stop - BitVec.ofNat 32 (4 * 1)) 0) (stop - BitVec.ofNat 32 (4 * 2)) entry)
      (stop - BitVec.ofNat 32 (4 * 3)) 0) (stop - BitVec.ofNat 32 (4 * 4)) 0)
      (stop - BitVec.ofNat 32 (4 * 5)) 0) (stop - BitVec.ofNat 32 (4 * 6)) 0)
      (stop - BitVec.ofNat 32 (4 * 7)) 0) (stop - BitVec.ofNat 32 (4 * 8)) 0 := rfl
  rw [hinit]
  simp (disch := omega) only [hlast]
  split_ifs <;> first | rfl | omega

/-- The first switch into a process: its stack, of `KSTACK_SIZE` bytes and ending on a page
    boundary, is as `init_stack` left it, its `context.sp` is the second argument of `swtch`, and
    `swtch` writes no word of it. -/
structure FirstSwitch (c : Cpu) (m₀ : Mem) (stop entry : BitVec 32) : Prop where
  aligned : stop.toNat % 4096 = 0
  size_le : kstackSize ≤ stop.toNat
  stack : ∀ a : BitVec 32, stop.toNat - kstackSize ≤ a.toNat → a.toNat < stop.toNat →
    c.mem a = (initStack m₀ stop entry).1 a
  sp : c.mem (c.esp + 8#32) = (initStack m₀ stop entry).2
  outside : ∀ a ∈ written c, ¬ (stop.toNat - kstackSize ≤ a.toNat ∧ a.toNat < stop.toNat)

section FirstSwitch

variable {c : Cpu} {m₀ : Mem} {stop entry : BitVec 32}

theorem FirstSwitch.toNat_sub (h : FirstSwitch c m₀ stop entry) {k : ℕ} (hk : k ≤ 32) :
    (stop - BitVec.ofNat 32 k).toNat = stop.toNat - k := by
  have h1 : 135168 ≤ stop.toNat := h.size_le
  have h2 := stop.isLt
  rw [BitVec.toNat_sub, BitVec.toNat_ofNat]
  omega

/-- The first switch pops the lowest four words of the frame and returns to the fifth. -/
theorem swtch_initStack (h : FirstSwitch c m₀ stop entry) :
    let c' := swtch c
    c'.edi = 0 ∧ c'.esi = 0 ∧ c'.ebx = 0 ∧ c'.ebp = 0 ∧ c'.eip = 0 ∧ c'.esp = stop - 12#32 := by
  have hk : kstackSize = 135168 := rfl
  have hle : kstackSize ≤ stop.toNat := h.size_le
  have hin : ∀ k : ℕ, 1 ≤ k → k ≤ 32 → stop.toNat - kstackSize ≤ (stop - BitVec.ofNat 32 k).toNat ∧
      (stop - BitVec.ofNat 32 k).toNat < stop.toNat := by
    intro k h1 h2
    rw [h.toNat_sub h2]
    omega
  have hword : ∀ i : ℕ, 4 ≤ i → i ≤ 8 → c.mem (stop - BitVec.ofNat 32 (4 * i)) = 0 := by
    intro i h4 h8
    obtain ⟨h1, h2⟩ := hin (4 * i) (by omega) (by omega)
    rw [h.stack _ h1 h2, initStack_apply m₀ stop entry (by omega) h8, if_neg (by omega)]
  have hshift : ∀ i < 6,
      stop - 32#32 + BitVec.ofNat 32 (4 * i) = stop - BitVec.ofNat 32 (4 * (8 - i)) := by
    intro i hi
    apply BitVec.eq_of_toNat_eq
    rw [h.toNat_sub (by omega), BitVec.toNat_add, BitVec.toNat_ofNat, h.toNat_sub le_rfl]
    have := stop.isLt
    omega
  have hsp : (initStack m₀ stop entry).2 = stop - 32#32 := rfl
  obtain ⟨h1, h2, h3, h4, h5, h6⟩ := swtch_eq (c := c) h.sp (by
    intro i hi hmem
    rw [hsp, hshift i (by omega)] at hmem
    exact h.outside _ hmem (hin _ (by omega) (by omega)))
  rw [hsp] at h1 h2 h3 h4 h5 h6
  refine ⟨h1.trans (hword 8 (by norm_num) le_rfl), h2.trans ?_, h3.trans ?_, h4.trans ?_,
    h5.trans ?_, h6.trans ?_⟩
  · rw [hshift 1 (by norm_num)]
    exact hword 7 (by norm_num) (by norm_num)
  · rw [hshift 2 (by norm_num)]
    exact hword 6 (by norm_num) (by norm_num)
  · rw [hshift 3 (by norm_num)]
    exact hword 5 (by norm_num) (by norm_num)
  · rw [hshift 4 (by norm_num)]
    exact hword 4 le_rfl (by norm_num)
  · exact hshift 5 (by norm_num)

/-- The process is entered at `entry`, with zero registers and a stack pointer in its stack. -/
def Entered (c : Cpu) (stop entry : BitVec 32) : Prop :=
  c.eip = entry ∧ c.edi = 0 ∧ c.esi = 0 ∧ c.ebx = 0 ∧ c.ebp = 0 ∧
    stop.toNat - kstackSize ≤ c.esp.toNat ∧ c.esp.toNat < stop.toNat

theorem entered_iff (h : FirstSwitch c m₀ stop entry) : Entered (swtch c) stop entry ↔ entry = 0 := by
  obtain ⟨h1, h2, h3, h4, h5, h6⟩ := swtch_initStack h
  have hk : kstackSize = 135168 := rfl
  have hle : kstackSize ≤ stop.toNat := h.size_le
  have hsp : (stop - 12#32).toNat = stop.toNat - 12 := h.toNat_sub (by norm_num)
  unfold Entered
  rw [h1, h2, h3, h4, h5, h6, hsp]
  constructor
  · intro hentry
    exact hentry.1.symm
  · intro hentry
    exact ⟨hentry.symm, rfl, rfl, rfl, rfl, by omega, by omega⟩

end FirstSwitch

end HorizonOS.I386.Switch

namespace HorizonOS.Switch

open HorizonOS.Lib HorizonOS.Proc

/-- The first switch into a process on x86_64: its stack, of `KSTACK_SIZE` bytes and ending on a
    page boundary, is as `init_stack` left it, and `swtch` writes no byte of it. -/
structure FirstSwitch (c : Cpu) (m₀ : Mem) (p : Process) (r : VmRegion) (entry : Word) : Prop where
  aligned : r.stop.toNat % 4096 = 0
  size : r.start.toNat + kstackSize = r.stop.toNat
  stack : ∀ b, r.start ≤ b → b < r.stop → c.mem b = (initStack m₀ p r entry).1 b
  outside : ∀ b, Within (c.rsp - 48#64) 48 b → ¬ (r.start ≤ b ∧ b < r.stop)

/-- The process is entered at `entry`, with zero registers and a stack pointer in its stack. -/
def Entered (c : Cpu) (r : VmRegion) (entry : Word) : Prop :=
  c.rip = entry ∧ c.saved = zeroSaved ∧ r.start ≤ c.rsp ∧ c.rsp < r.stop

section FirstSwitch

variable {c : Cpu} {m₀ : Mem} {p : Process} {r : VmRegion} {entry : Word}

theorem FirstSwitch.entered (h : FirstSwitch c m₀ p r entry) (newCr3 : Word) :
    Entered (swtch c (initStack m₀ p r entry).2.sp newCr3).1 r entry := by
  have hk : kstackSize = 135168 := rfl
  have hsize := h.size
  have hlt := r.stop.isLt
  have hsp : (r.stop - 64#64).toNat = r.stop.toNat - 64 := by
    rw [BitVec.toNat_sub, BitVec.toNat_ofNat]
    omega
  have hword : ∀ k < 64, (r.stop - 64#64 + BitVec.ofNat 64 k).toNat = r.stop.toNat - 64 + k := by
    intro k hk
    rw [toNat_add_ofNat (by omega), hsp]
  -- the frame of `init_stack` is still there when the registers are popped
  have hframe : SwtchFrame (writeSaved c.mem (c.rsp - 48#64) c.saved) (r.stop - 64#64) zeroSaved
      entry := by
    refine (initStack_frame m₀ p r entry).congr fun k hk => ?_
    have hin : r.start ≤ r.stop - 64#64 + BitVec.ofNat 64 k ∧
        r.stop - 64#64 + BitVec.ofNat 64 k < r.stop := by
      rw [BitVec.le_def, BitVec.lt_def, hword k (by omega)]
      omega
    rw [writeSaved_apply fun hw => h.outside _ hw hin, h.stack _ hin.1 hin.2]
  have hnew : (initStack m₀ p r entry).2.sp = r.stop - 64#64 := rfl
  rw [hnew, swtch_resumes hframe]
  refine ⟨rfl, rfl, ?_, ?_⟩
  · show r.start ≤ r.stop - 64#64 + BitVec.ofNat 64 56
    rw [BitVec.le_def, hword 56 (by norm_num)]
    omega
  · show r.stop - 64#64 + BitVec.ofNat 64 56 < r.stop
    rw [BitVec.lt_def, hword 56 (by norm_num)]
    omega

/-- **The frame of `init_stack` and `swtch`.** On x86_64 the first switch into a process enters
    it. On i386 it does so only for the entry address 0: `swtch` pops four registers there, and
    returns to a word that `init_stack` meant for a register. -/
theorem initStack_swtch (c : Cpu) (m₀ : Mem) (p : Process) (r : VmRegion) (entry newCr3 : Word)
    (c' : I386.Switch.Cpu) (m₀' : I386.Switch.Mem) (stop entry' : BitVec 32) :
    (FirstSwitch c m₀ p r entry →
      Entered (swtch c (initStack m₀ p r entry).2.sp newCr3).1 r entry) ∧
    (I386.Switch.FirstSwitch c' m₀' stop entry' →
      (I386.Switch.Entered (I386.Switch.swtch c') stop entry' ↔ entry' = 0)) :=
  ⟨fun h => h.entered newCr3, fun h => I386.Switch.entered_iff h⟩

end FirstSwitch

/-- A processor about to switch from a stack at `0x8000` into a process that `init_stack` set up
    on the stack `[0x100000, 0x121000)`. -/
def firstCpu : Cpu where
  saved := ⟨1, 2, 3, 4, 5, 6⟩
  rsp := 0x8000
  rax := 0
  rip := 0
  cr3 := 0
  mem := (initStack (fun _ => 0) default ⟨0, .stack, 0x100000, 0x121000⟩ 0x4000).1

theorem firstCpu_firstSwitch :
    FirstSwitch firstCpu (fun _ => 0) default ⟨0, .stack, 0x100000, 0x121000⟩ 0x4000 where
  aligned := by decide
  size := by decide
  stack _ _ _ := rfl
  outside b hb hin := by
    have hrsp : (firstCpu.rsp - 48#64).toNat = 0x7fd0 := by decide
    rw [within_iff (by rw [hrsp]; norm_num), hrsp] at hb
    have hlo : (0x100000#64).toNat ≤ b.toNat := hin.1
    rw [BitVec.toNat_ofNat] at hlo
    omega

/-- The same switch on i386: `swtch` finds its arguments above `0x8000`. -/
def firstCpu32 : I386.Switch.Cpu where
  ebp := 1
  ebx := 2
  esi := 3
  edi := 4
  esp := 0x8000
  eip := 0
  cr3 := 0
  mem := Function.update (Function.update
    (I386.Switch.initStack (fun _ => 0) 0x121000 0x4000).1 0x8004 0x9000) 0x8008 0x120fe0

theorem firstCpu32_firstSwitch :
    I386.Switch.FirstSwitch firstCpu32 (fun _ => 0) 0x121000 0x4000 where
  aligned := by decide
  size_le := by decide
  stack a h1 _ := by
    rw [show (0x121000 : BitVec 32).toNat - kstackSize = 0x100000 by decide] at h1
    have hne : ∀ x : BitVec 32, x.toNat < 0x100000 → a ≠ x := by
      rintro x hx rfl
      omega
    show Function.update _ _ _ a = _
    rw [Function.update_of_ne (hne _ (by decide)), Function.update_of_ne (hne _ (by decide))]
  sp := by decide
  outside a ha hin := by
    have hwritten : I386.Switch.written firstCpu32 = [0x7ffc, 0x7ff8, 0x7ff4, 0x7ff0, 0x9000] := by
      decide
    have hlow : a.toNat < 0x100000 := by
      rw [hwritten] at ha
      simp only [List.mem_cons, List.not_mem_nil, or_false] at ha
      rcases ha with rfl | rfl | rfl | rfl | rfl <;> decide
    rw [show (0x121000 : BitVec 32).toNat - kstackSize = 0x100000 by decide] at hin
    exact absurd hlow (Nat.not_lt.mpr hin.1)

theorem initStack_swtch_first :
    Entered (swtch firstCpu 0x120fc0 0).1 ⟨0, .stack, 0x100000, 0x121000⟩ 0x4000 ∧
      (I386.Switch.Entered (I386.Switch.swtch firstCpu32) 0x121000 0x4000 ↔ (0x4000 : BitVec 32) = 0) := by
  have hboth := initStack_swtch firstCpu (fun _ => 0) default ⟨0, .stack, 0x100000, 0x121000⟩ 0x4000 0
    firstCpu32 (fun _ => 0) 0x121000 0x4000
  exact ⟨hboth.1 firstCpu_firstSwitch, hboth.2 firstCpu32_firstSwitch⟩

/-- On i386 the process is entered at address 0. -/
theorem initStack_swtch_lost :
    I386.Switch.FirstSwitch firstCpu32 (fun _ => 0) 0x121000 0x4000 ∧
      (I386.Switch.swtch firstCpu32).eip = 0 ∧
      ¬ I386.Switch.Entered (I386.Switch.swtch firstCpu32) 0x121000 0x4000 := by
  obtain ⟨-, -, -, -, heip, -⟩ := I386.Switch.swtch_initStack firstCpu32_firstSwitch
  refine ⟨firstCpu32_firstSwitch, heip, ?_⟩
  rw [I386.Switch.entered_iff firstCpu32_firstSwitch]
  decide

end HorizonOS.Switch
