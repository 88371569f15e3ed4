import HorizonOS.Lib.WordStack
import HorizonOS.Switch.Swtch

/-!
# Interrupt entry and exit

Model of `arch/x86_64/asm/interrupt.S`: the stubs `isr0 … isr47` and
`isr_common_stub`, instruction by instruction over the general registers, the flags
and the segment registers. What the processor does itself is modelled for an
interrupt gate without a change of privilege or stack, the only kind the kernel
installs: `deliver` aligns the stack, pushes the return frame and clears the
interrupt flag, `iretq` takes the frame back.

Of `rflags` only the interrupt flag is followed between entry and exit; the status
flags that `xorq` and `addq` change are overwritten by `iretq`.

Results:
* `interruptEntry_spec`: what is on the stack when `isr_handler` is called, for every vector
  whose stub knows whether the processor has pushed an error code.
* `isrCommonExit_eq`: the way back restores the registers that such a stack holds. The stub
  saves `ds` only, so `es`, `fs` and `gs` come back with its value.
-/

namespace HorizonOS.Interrupt

open HorizonOS.Lib HorizonOS.Switch

/-! ## Machine -/

/-- The general registers other than `rsp`. -/
inductive Reg
  | rax | rbx | rcx | rdx | rbp | rsi | rdi | r8 | r9 | r10 | r11 | r12 | r13 | r14 | r15
deriving DecidableEq, Repr

structure Processor where
  regs : Reg → Word
  rsp : Addr
  rip : Word
  rflags : Word
  cr3 : Word
  cs : BitVec 16
  ss : BitVec 16
  ds : BitVec 16
  es : BitVec 16
  fs : BitVec 16
  gs : BitVec 16
  mem : Mem

/-- `FL_IF` (irqflags.h:26). -/
def flIf : Word := 0x200

namespace Processor

/-- The part that `swtch.S` works on. -/
def cpu (c : Processor) : Cpu where
  saved := ⟨c.regs .rbp, c.regs .rbx, c.regs .r12, c.regs .r13, c.regs .r14, c.regs .r15⟩
  rsp := c.rsp
  rax := c.regs .rax
  rip := c.rip
  cr3 := c.cr3
  mem := c.mem

def set (c : Processor) (r : Reg) (w : Word) : Processor :=
  { c with regs := Function.update c.regs r w }

@[simp] theorem set_regs_self (c : Processor) (r : Reg) (w : Word) : (c.set r w).regs r = w :=
  Function.update_self _ _ _

/-- `pushq`. -/
def push (c : Processor) (w : Word) : Processor :=
  { c with rsp := c.rsp - 8#64, mem := c.mem.store (c.rsp - 8#64) w }

@[simp] theorem push_regs (c : Processor) (w : Word) : (c.push w).regs = c.regs := rfl

/-- `popq`. -/
def pop (c : Processor) (r : Reg) : Processor :=
  { c.set r (c.mem.load c.rsp) with rsp := c.rsp + 8#64 }

/-- `cli`. -/
def cli (c : Processor) : Processor := { c with rflags := c.rflags &&& ~~~flIf }

/-- `movw %ax, %ds` and the three moves after it (interrupt.S:36–39 and 47–50). -/
def loadData (c : Processor) : Processor :=
  let ax := (c.regs .rax).setWidth 16
  { c with ds := ax, es := ax, fs := ax, gs := ax }

/-- The processor takes an interrupt or an exception through an interrupt gate: the
    stack is aligned, `ss`, `rsp`, `rflags`, `cs` and `rip` are pushed, then the
    error code if the exception has one. -/
def deliver (c : Processor) (offset : Word) (selector : BitVec 16) (err : Option Word) :
    Processor :=
  let d := { c with rsp := c.rsp &&& ~~~15#64 }
  let d := d.push (c.ss.setWidth 64)
  let d := d.push c.rsp
  let d := d.push c.rflags
  let d := d.push (c.cs.setWidth 64)
  let d := d.push c.rip
  let d := match err with
    | some e => d.push e
    | none => d
  { d.cli with rip := offset, cs := selector }

/-- `iretq`. -/
def iretq (c : Processor) : Processor :=
  { c with
    rip := c.mem.load c.rsp
    cs := (c.mem.load (c.rsp + 8#64)).setWidth 16
    rflags := c.mem.load (c.rsp + 16#64)
    rsp := c.mem.load (c.rsp + 24#64)
    ss := (c.mem.load (c.rsp + 32#64)).setWidth 16 }

end Processor

/-! ## Model of `interrupt.S` -/

/-- The vectors whose stub is an `isr_err_stub` (interrupt.S:99–148). -/
def errStubs : List ℕ := [8, 10, 11, 12, 13, 14, 17, 30]

/-- `isr<num>` (interrupt.S:76–96), up to its jump. -/
def isrStub (num : ℕ) (c : Processor) : Processor :=
  let c := c.cli
  let c := if num ∈ errStubs then c else c.push 0
  c.push (BitVec.ofNat 64 num)

/-- The pushes of `isr_common_stub` (interrupt.S:13–27). -/
def pushOrder : List Reg :=
  [.rax, .rbx, .rcx, .rdx, .rbp, .rsi, .rdi, .r8, .r9, .r10, .r11, .r12, .r13, .r14, .r15]

/-- Its pops (interrupt.S:53–67). -/
def popOrder : List Reg :=
  [.r15, .r14, .r13, .r12, .r11, .r10, .r9, .r8, .rdi, .rsi, .rbp, .rdx, .rcx, .rbx, .rax]

/-- The entry of `isr_handler` and the return address of its call. -/
structure IsrLabels where
  isrHandler : Word
  isrReturn : Word

/-- `isr_common_stub` up to and including the call of `isr_handler`
    (interrupt.S:11–43). -/
def isrCommonEntry (L : IsrLabels) (c : Processor) : Processor :=
  let c := pushOrder.foldl (fun c r => c.push (c.regs r)) c
  -- `xorq %rax, %rax; movw %ds, %ax`
  let c := c.set .rax (c.ds.setWidth 64)
  let c := c.push (c.regs .rax)
  -- `movw $0x10, %ax` leaves the upper bits of `rax`
  let c := c.set .rax (c.regs .rax &&& ~~~0xFFFF#64 ||| 0x10#64)
  let c := c.loadData
  let c := c.set .rdi c.rsp
  { c.push L.isrReturn with rip := L.isrHandler }

/-- The rest of `isr_common_stub`, once `isr_handler` has returned
    (interrupt.S:46–72). -/
def isrCommonExit (c : Processor) : Processor :=
  let c := (c.pop .rax).loadData
  let c := popOrder.foldl Processor.pop c
  let c := { c with rsp := c.rsp + 16#64 }
  c.iretq

/-- From the instruction that is interrupted to the entry of `isr_handler`. -/
def interruptEntry (L : IsrLabels) (c : Processor) (offset : Word) (selector : BitVec 16) (num : ℕ)
    (err : Option Word) : Processor :=
  isrCommonEntry L (isrStub num (c.deliver offset selector err))

/-! ## The frame -/

/-- `struct interrupt_context` (x86_64/interrupts/isr.h:7–12) of an interrupted
    processor, lowest address first. -/
def interruptContext (c : Processor) (num : ℕ) (err : Option Word) : List Word :=
  c.ds.setWidth 64 :: popOrder.map c.regs ++
    [BitVec.ofNat 64 num, err.getD 0, c.rip, c.cs.setWidth 64, c.rflags, c.rsp, c.ss.setWidth 64]

/-- Where it lies: 23 words below the aligned stack pointer. -/
def contextAddr (c : Processor) : Addr := (c.rsp &&& ~~~15#64) - 184#64

theorem length_interruptContext (c : Processor) (num : ℕ) (err : Option Word) :
    (interruptContext c num err).length = 23 := rfl

namespace Processor

/-- A row of pushes. -/
def pushAll (c : Processor) (ws : List Word) : Processor :=
  { c with
    rsp := c.rsp - BitVec.ofNat 64 (8 * ws.length)
    mem := c.mem.pushWords c.rsp ws }

theorem pushAll_nil (c : Processor) : c.pushAll [] = c := by
  simp [pushAll, Mem.pushWords]

theorem push_pushAll (c : Processor) (w : Word) (ws : List Word) :
    (c.push w).pushAll ws = c.pushAll (w :: ws) := by
  simp only [pushAll, push, Mem.sub_ofNat_succ, List.length_cons, Mem.pushWords]

theorem push_eq (c : Processor) (w : Word) : c.push w = c.pushAll [w] := by
  rw [← push_pushAll, pushAll_nil]

theorem pushAll_pushAll (c : Processor) (ws vs : List Word) :
    (c.pushAll ws).pushAll vs = c.pushAll (ws ++ vs) := by
  induction ws generalizing c with
  | nil => rw [pushAll_nil, List.nil_append]
  | cons w ws ih => rw [← push_pushAll, ih, List.cons_append, ← push_pushAll]

theorem foldl_push (c : Processor) (order : List Reg) :
    order.foldl (fun c r => c.push (c.regs r)) c = c.pushAll (order.map c.regs) := by
  induction order generalizing c with
  | nil => exact (pushAll_nil c).symm
  | cons r order ih =>
    rw [List.foldl_cons, ih, List.map_cons, ← push_pushAll]
    rfl

end Processor

/-! ## Entry -/

/-- The stub of `num` pushes an error code of its own exactly when the processor has
    not pushed one. -/
def Matches (num : ℕ) (err : Option Word) : Prop := err.isSome = decide (num ∈ errStubs)

section

variable {L : IsrLabels} {c : Processor} {offset : Word} {selector : BitVec 16} {num : ℕ}
  {err : Option Word}

theorem isrStub_deliver (h : Matches num err) :
    isrStub num (c.deliver offset selector err) =
      { ({ c with rsp := c.rsp &&& ~~~15#64 }.pushAll
          [c.ss.setWidth 64, c.rsp, c.rflags, c.cs.setWidth 64, c.rip, err.getD 0,
            BitVec.ofNat 64 num]).cli.cli with
        rip := offset, cs := selector } := by
  cases err with
  | none =>
    have hnum : num ∉ errStubs := by simpa [Matches] using h
    simp only [isrStub, if_neg hnum, ← Processor.push_pushAll, Processor.pushAll_nil]
    rfl
  | some e =>
    have hnum : num ∈ errStubs := by simpa [Matches] using h
    simp only [isrStub, if_pos hnum, ← Processor.push_pushAll, Processor.pushAll_nil]
    rfl

/-- What is pushed between the interrupted instruction and the call. -/
theorem interruptContext_reverse (c : Processor) (num : ℕ) (err : Option Word) :
    [c.ss.setWidth 64, c.rsp, c.rflags, c.cs.setWidth 64, c.rip, err.getD 0, BitVec.ofNat 64 num] ++
      pushOrder.map c.regs ++ [c.ds.setWidth 64] = (interruptContext c num err).reverse := rfl

/-- The stack once `isr_common_stub` has pushed the registers and `ds`. -/
def registersPushed (c : Processor) : Processor :=
  c.pushAll (pushOrder.map c.regs ++ [c.ds.setWidth 64])

/-- `isr_common_stub` leaves in memory what it has pushed and the return address below. -/
theorem isrCommonEntry_stack (L : IsrLabels) (c : Processor) :
    (isrCommonEntry L c).mem =
        (registersPushed c).mem.store ((registersPushed c).rsp - 8#64) L.isrReturn ∧
      (isrCommonEntry L c).rsp = (registersPushed c).rsp - 8#64 ∧
      (isrCommonEntry L c).regs .rdi = (registersPushed c).rsp := by
  rw [registersPushed, ← Processor.pushAll_pushAll, ← Processor.push_eq]
  unfold isrCommonEntry
  simp only [Processor.foldl_push, Processor.set_regs_self]
  refine ⟨rfl, rfl, ?_⟩
  rw [Processor.push_regs, Processor.set_regs_self]
  rfl

theorem isrCommonEntry_control (L : IsrLabels) (c : Processor) :
    (isrCommonEntry L c).rip = L.isrHandler ∧ (isrCommonEntry L c).rflags = c.rflags ∧
      (isrCommonEntry L c).cr3 = c.cr3 ∧ (isrCommonEntry L c).cs = c.cs := by
  unfold isrCommonEntry
  rw [Processor.foldl_push]
  exact ⟨rfl, rfl, rfl, rfl⟩

/-- The memory once everything has been pushed. -/
def contextPushed (c : Processor) (num : ℕ) (err : Option Word) : Mem :=
  c.mem.pushWords (c.rsp &&& ~~~15#64) (interruptContext c num err).reverse

theorem contextPushed_words (c : Processor) (num : ℕ) (err : Option Word) :
    Mem.WordsAt (contextPushed c num err) (contextAddr c) (interruptContext c num err) := by
  have h0 : Mem.WordsAt c.mem (c.rsp &&& ~~~15#64) [] := trivial
  have h1 := h0.pushWords (interruptContext c num err).reverse (by
    rw [List.length_reverse, length_interruptContext]; norm_num)
  rwa [List.reverse_reverse, List.append_nil, List.length_reverse, length_interruptContext] at h1

theorem isrStub_pushed (c : Processor) (offset : Word) (selector : BitVec 16) (h : Matches num err) :
    (registersPushed (isrStub num (c.deliver offset selector err))).mem = contextPushed c num err ∧
      (registersPushed (isrStub num (c.deliver offset selector err))).rsp = contextAddr c := by
  have hall : (({ c with rsp := c.rsp &&& ~~~15#64 } : Processor).pushAll
      (interruptContext c num err).reverse).rsp = contextAddr c := by
    simp only [Processor.pushAll, List.length_reverse, length_interruptContext]
    rfl
  have hmem : contextPushed c num err = (({ c with rsp := c.rsp &&& ~~~15#64 } : Processor).pushAll
      (interruptContext c num err).reverse).mem := rfl
  rw [← hall, hmem, ← interruptContext_reverse, List.append_assoc, ← Processor.pushAll_pushAll,
    isrStub_deliver h]
  exact ⟨rfl, rfl⟩

theorem isrStub_control (c : Processor) (offset : Word) (selector : BitVec 16) (h : Matches num err) :
    let d := isrStub num (c.deliver offset selector err)
    d.rflags = c.rflags &&& ~~~flIf &&& ~~~flIf ∧ d.cr3 = c.cr3 ∧ d.cs = selector := by
  rw [isrStub_deliver h]
  exact ⟨rfl, rfl, rfl⟩

/-- **Entry.** When `isr_handler` is entered, its argument points to the interrupt
    context of the interrupted processor, interrupts are off, and only the words below
    the aligned stack pointer have been written. -/
theorem interruptEntry_spec (L : IsrLabels) (c : Processor) (offset : Word)
    (selector : BitVec 16) (h : Matches num err) :
    let e := interruptEntry L c offset selector num err
    Mem.WordsAt e.mem (contextAddr c) (interruptContext c num err) ∧
      e.regs .rdi = contextAddr c ∧ e.rsp = contextAddr c - 8#64 ∧ e.rip = L.isrHandler ∧
      e.rflags &&& flIf = 0 ∧ e.cs = selector ∧ e.cr3 = c.cr3 ∧
      ∀ b, ¬ Within (contextAddr c - 8#64) 192 b → e.mem b = c.mem b := by
  obtain ⟨hpushed, haddr⟩ := isrStub_pushed c offset selector h
  obtain ⟨hmem, hrsp, hrdi⟩ := isrCommonEntry_stack L (isrStub num (c.deliver offset selector err))
  obtain ⟨hrip, hflags, hcr3, hcs⟩ :=
    isrCommonEntry_control L (isrStub num (c.deliver offset selector err))
  rw [hpushed, haddr] at hmem
  rw [haddr] at hrsp hrdi
  obtain ⟨hflags', hcr3', hcs'⟩ :=
    isrStub_control c offset selector h
  unfold interruptEntry
  refine ⟨?_, hrdi, hrsp, hrip, ?_, hcs.trans hcs', hcr3.trans hcr3', ?_⟩
  · rw [hmem]
    refine (contextPushed_words c num err).congr fun k hk => Mem.store_apply_of_not_within ?_
    rw [length_interruptContext] at hk
    unfold Within
    bv_omega
  · rw [hflags, hflags', BitVec.and_assoc, BitVec.and_comm (~~~flIf) flIf, BitVec.and_not_self]
    exact BitVec.and_zero
  · intro b hb
    have hk : ∀ k n : ℕ, k + n ≤ 192 →
        ¬ Within (contextAddr c - 8#64 + BitVec.ofNat 64 k) n b :=
      fun k n hk hw => hb (within_of_within_add hw hk (by norm_num))
    have h0 := hk 0 8 (by norm_num)
    have h8 := hk 8 184 (by norm_num)
    rw [show contextAddr c - 8#64 + BitVec.ofNat 64 0 = contextAddr c - 8#64 from add_zero _] at h0
    rw [show contextAddr c - 8#64 + BitVec.ofNat 64 8 = contextAddr c from sub_add_cancel _ _] at h8
    rw [hmem, Mem.store_apply_of_not_within h0, contextPushed, Mem.pushWords_apply]
    · rw [List.length_reverse, length_interruptContext]; norm_num
    · rw [List.length_reverse, length_interruptContext]
      exact h8

end

/-! ## Exit -/

theorem foldl_pop {f : Reg → Word} (c : Processor) (order : List Reg) {ws : List Word}
    (h : Mem.WordsAt c.mem c.rsp (order.map f ++ ws)) :
    order.foldl Processor.pop c =
      { c with
        regs := fun r => if r ∈ order then f r else c.regs r
        rsp := c.rsp + BitVec.ofNat 64 (8 * order.length) } := by
  induction order generalizing c with
  | nil => simp
  | cons r order ih =>
    obtain ⟨hw, hrest⟩ := h
    have hregs : (c.pop r).regs = Function.update c.regs r (f r) := by
      rw [← hw]
      rfl
    rw [List.foldl_cons, ih _ hrest, hregs]
    have hrsp : (c.pop r).rsp + BitVec.ofNat 64 (8 * order.length) =
        c.rsp + BitVec.ofNat 64 (8 * (r :: order).length) := by
      show c.rsp + 8#64 + BitVec.ofNat 64 (8 * order.length) = _
      rw [List.length_cons, Nat.mul_succ, Nat.add_comm (8 * order.length), BitVec.ofNat_add, add_assoc]
    rw [hrsp]
    congr 1
    funext q
    by_cases hq : q = r
    · subst hq
      simp
    · simp [hq]

theorem setWidth_setWidth_selector (s : BitVec 16) : (s.setWidth 64).setWidth 16 = s := by
  rw [BitVec.setWidth_setWidth_of_le _ (by norm_num), BitVec.setWidth_eq]

/-- `iretq` takes the five words of the return frame. -/
theorem Processor.iretq_eq {c d : Processor} (h : Mem.WordsAt d.mem d.rsp
      [c.rip, c.cs.setWidth 64, c.rflags, c.rsp, c.ss.setWidth 64]) :
    d.iretq = { d with rip := c.rip, cs := c.cs, rflags := c.rflags, rsp := c.rsp, ss := c.ss } := by
  obtain ⟨hrip, hcs, hflags, hrsp, hss, -⟩ := h
  rw [add_assoc, add_assoc] at hrsp
  rw [add_assoc] at hflags
  rw [add_assoc, add_assoc, add_assoc] at hss
  have hsels : (d.mem.load (d.rsp + 8#64)).setWidth 16 = c.cs ∧
      (d.mem.load (d.rsp + 32#64)).setWidth 16 = c.ss := by
    constructor
    · rw [hcs, setWidth_setWidth_selector]
    · rw [show 32#64 = 8#64 + (8#64 + (8#64 + 8#64)) from rfl, hss, setWidth_setWidth_selector]
  unfold Processor.iretq
  rw [hrip, hsels.1, hsels.2, show 16#64 = 8#64 + 8#64 from rfl, hflags,
    show 24#64 = 8#64 + (8#64 + 8#64) from rfl, hrsp]

/-- **Exit.** Popping the interrupt context of `c` gives its registers, stack pointer,
    flags and segments back, except that `es`, `fs` and `gs` take the value of `ds`. -/
theorem isrCommonExit_eq {c d : Processor} {num : ℕ} {err : Option Word}
    (h : Mem.WordsAt d.mem d.rsp (interruptContext c num err)) :
    isrCommonExit d = { c with es := c.ds, fs := c.ds, gs := c.ds, cr3 := d.cr3, mem := d.mem } := by
  obtain ⟨hds, hrest⟩ := h
  have hax : ((d.pop .rax).regs .rax).setWidth 16 = c.ds := by
    show ((d.set .rax (d.mem.load d.rsp)).regs .rax).setWidth 16 = c.ds
    rw [Processor.set_regs_self, hds, setWidth_setWidth_selector]
  have hpop := foldl_pop (d.pop .rax).loadData popOrder hrest
  have hregs : (fun r => if r ∈ popOrder then c.regs r else ((d.pop .rax).loadData).regs r) =
      c.regs := by
    funext r
    cases r <;> rfl
  rw [hregs] at hpop
  obtain ⟨-, -, -, hframe⟩ := Mem.wordsAt_append.mp hrest
  unfold isrCommonExit
  simp only
  rw [hpop, Processor.iretq_eq (c := c)]
  · simp only [Processor.loadData, hax]
    rfl
  · have hsp : ∀ a : Addr, a + 16#64 = a + 8#64 + 8#64 := fun a => by rw [add_assoc]; rfl
    show Mem.WordsAt d.mem (d.rsp + 8#64 + BitVec.ofNat 64 (8 * popOrder.length) + 16#64) _
    rw [hsp]
    rwa [List.length_map] at hframe

end HorizonOS.Interrupt
