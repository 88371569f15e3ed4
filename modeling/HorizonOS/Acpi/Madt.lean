import HorizonOS.Lib.Basic
import HorizonOS.Lib.Memory
import HorizonOS.Lib.RecordWalk

/-!
# The MADT

Model of `parse_madt` and of the functions that read what it found (kernel/apic/madt.c). The table is
the memory from `madt_addr` on, and pointers into it are offsets. Every byte read is logged.

The loop advances by the length byte of each record, looks only at the record's first byte to see
whether the table is over, and reads the fields that the type byte asks for. So it ends exactly if
no record it reaches has length 0, and stays in the table exactly if no record it reaches is cut off
by the end of the table.

* `parseMadt_returns_iff`: termination.
* `parseMadt_reads_iff`: the bytes read.
* `Madt`: tables as the format has them; `parseMadt_routes`: what is found in one.
-/

namespace HorizonOS.Acpi

open HorizonOS.Lib HorizonOS.Lib.RecordWalk

/-! ## Model -/

/-- An element of `irq_overrides` (madt.c:15–19). -/
structure IrqOverride where
  sourceIrq : Byte
  globalIrq : BitVec 32
  flags : BitVec 16
deriving DecidableEq

/-- The static variables (madt.c:6–20). -/
structure Statics where
  ioapicAddress : BitVec 32
  ioapicIrqBase : BitVec 32
  ioapicId : Byte
  lapicAddress : BitVec 32
  irqOverrides : ℕ → IrqOverride
  numOverrides : ℕ

def Statics.zero : Statics := ⟨0, 0, 0, 0, fun _ => ⟨0, 0, 0⟩, 0⟩

/-- `struct ioapic` (madt.h:48–53), without its reserved byte. -/
structure Ioapic where
  id : Byte
  address : BitVec 32
  irqBase : BitVec 32
deriving DecidableEq

/-- The I/O APIC is stored if there is none with an address yet (madt.c:66–71). -/
def Statics.addIoapic (s : Statics) (a : Ioapic) : Statics :=
  if s.ioapicAddress = 0 then
    { s with ioapicAddress := a.address, ioapicIrqBase := a.irqBase, ioapicId := a.id }
  else s

/-- The override is stored if there is room (madt.c:87–94). -/
def Statics.addOverride (s : Statics) (o : IrqOverride) : Statics :=
  if s.numOverrides < 16 then
    { s with
      irqOverrides := Function.update s.irqOverrides s.numOverrides o
      numOverrides := s.numOverrides + 1 }
  else s

/-- A computation that logs the offsets of the bytes it reads. -/
abbrev Reading := StateM (List ℕ)

def readByte (t : ℕ → Byte) (i : ℕ) : Reading Byte := fun log => (t i, log ++ [i])

def read16 (t : ℕ → Byte) (i : ℕ) : Reading (BitVec 16) := do
  let lo ← readByte t i
  let hi ← readByte t (i + 1)
  return hi ++ lo

def read32 (t : ℕ → Byte) (i : ℕ) : Reading (BitVec 32) := do
  let lo ← read16 t i
  let hi ← read16 t (i + 2)
  return hi ++ lo

/-- The body of the loop of `parse_madt` for the record at `entry` (madt.c:39–147), without the
    texts that it logs. The fields sit behind the two bytes of `struct madt_record_header`. The type
    is a signed `char`; all negative types are unknown ones. -/
def parseEntry (t : ℕ → Byte) (entry : ℕ) (s : Statics) : Reading Statics := do
  let _entryLength ← readByte t (entry + 1)
  let entryType ← readByte t entry
  match entryType.toNat with
  | 0 =>
    let _acpiProcessorId ← readByte t (entry + 2)
    let _apicId ← readByte t (entry + 3)
    let _flags ← read32 t (entry + 4)
    return s
  | 1 =>
    let ioapicId ← readByte t (entry + 2)
    let ioApicAddress ← read32 t (entry + 4)
    let globalSystemInterruptBase ← read32 t (entry + 8)
    return s.addIoapic ⟨ioapicId, ioApicAddress, globalSystemInterruptBase⟩
  | 2 =>
    let flags ← read16 t (entry + 8)
    let _busSource ← readByte t (entry + 2)
    let irqSource ← readByte t (entry + 3)
    let globalSystemInterrupt ← read32 t (entry + 4)
    return s.addOverride ⟨irqSource, globalSystemInterrupt, flags⟩
  | 3 =>
    let _nmiSource ← readByte t (entry + 2)
    let _globalSystemInterrupt ← read32 t (entry + 6)
    return s
  | 4 =>
    let _acpiProcessorId ← readByte t (entry + 2)
    let _lintNumber ← readByte t (entry + 5)
    return s
  | 5 =>
    let _high ← read32 t (entry + 8)
    let _low ← read32 t (entry + 4)
    return s
  | 9 =>
    let _processorLocalX2apicId ← read32 t (entry + 4)
    let _flags ← read32 t (entry + 8)
    let _acpiId ← read32 t (entry + 12)
    return s
  | _ => return s

/-- `record_lenght` of the record at `entry`, as the `uint8_t` that the loop adds (madt.c:41, 149). -/
def recordLength (t : ℕ → Byte) (entry : ℕ) : ℕ := (t (entry + 1)).toNat

/-- `sizeof(struct madt_extended_header)`. -/
def extendedHeaderSize : ℕ := 44

/-- `parse_madt(madt_addr)` (madt.c:22–151) after the call of `map_physical_range`: the static
    variables and the log; `none` if the loop is not over after `fuel` turns. -/
def parseMadt (t : ℕ → Byte) (fuel : ℕ) (s : Statics) : Option (Statics × List ℕ) :=
  let (length, log) := (read32 t 4).run []
  let (apicAddress, log) := (read32 t 36).run log
  walk (recordLength t) length.toNat (fun entry x => (parseEntry t entry x.1).run x.2) fuel
    extendedHeaderSize ({ s with lapicAddress := apicAddress }, log)

/-- `get_lapic_address()` (madt.c:154–156). -/
def getLapicAddress (s : Statics) : BitVec 32 := s.lapicAddress

/-- `get_ioapic_address()` (madt.c:158–160). -/
def getIoapicAddress (s : Statics) : BitVec 32 := s.ioapicAddress

/-- `get_ioapic_id()` (madt.c:162–164). -/
def getIoapicId (s : Statics) : Byte := s.ioapicId

/-- The overrides stored so far. -/
def Statics.kept (s : Statics) : List IrqOverride :=
  (List.range s.numOverrides).map s.irqOverrides

/-- The loop of the two functions for the keyboard: the first override of IRQ 1. -/
def Statics.keyboardOverride (s : Statics) : Option IrqOverride :=
  s.kept.find? fun o => o.sourceIrq = 1

/-- `get_keyboard_global_irq()` (madt.c:166–175). -/
def getKeyboardGlobalIrq (s : Statics) : BitVec 32 := (s.keyboardOverride.map (·.globalIrq)).getD 1

/-- `get_keyboard_irq_flags()` (madt.c:177–186). -/
def getKeyboardIrqFlags (s : Statics) : BitVec 16 := (s.keyboardOverride.map (·.flags)).getD 0

/-! ## One record -/

/-- The half word and the word at `i`. -/
def half (b : ℕ → Byte) (i : ℕ) : BitVec 16 := b (i + 1) ++ b i

def word (b : ℕ → Byte) (i : ℕ) : BitVec 32 := half b (i + 2) ++ half b i

/-- An I/O APIC with an address. -/
def Ioapic.located (a : Ioapic) : Bool := a.address ≠ 0

theorem Ioapic.located_iff (a : Ioapic) : a.located = true ↔ a.address ≠ 0 := decide_eq_true_iff

/-- The I/O APIC in the static variables. -/
def Statics.ioapic (s : Statics) : Ioapic := ⟨s.ioapicId, s.ioapicAddress, s.ioapicIrqBase⟩

/-- The I/O APIC that a record of type 1 with the bytes `b` describes. -/
def ioapicOf (b : ℕ → Byte) : Ioapic := ⟨b 2, word b 4, word b 8⟩

/-- The override that a record of type 2 with the bytes `b` describes. -/
def overrideOf (b : ℕ → Byte) : IrqOverride := ⟨b 3, word b 4, half b 8⟩

/-- What the record with the bytes `b` does to the static variables. -/
def Statics.addRecord (s : Statics) (b : ℕ → Byte) : Statics :=
  match (b 0).toNat with
  | 1 => s.addIoapic (ioapicOf b)
  | 2 => s.addOverride (overrideOf b)
  | _ => s

/-- How far a record of this type reaches: its header and the structure of its type. -/
def extent (type : Byte) : ℕ :=
  match type.toNat with
  | 0 => 8
  | 1 => 12
  | 2 => 10
  | 3 => 10
  | 4 => 6
  | 5 => 12
  | 9 => 16
  | _ => 2

/-- The bytes of a record that are read, counted from its start. -/
def bytesRead (type : Byte) : List ℕ :=
  match type.toNat with
  | 0 => [0, 1, 2, 3, 4, 5, 6, 7]
  | 1 => [0, 1, 2, 4, 5, 6, 7, 8, 9, 10, 11]
  | 2 => [0, 1, 2, 3, 4, 5, 6, 7, 8, 9]
  | 3 => [0, 1, 2, 6, 7, 8, 9]
  | 4 => [0, 1, 2, 5]
  | 5 => [0, 1, 4, 5, 6, 7, 8, 9, 10, 11]
  | 9 => [0, 1, 4, 5, 6, 7, 8, 9, 10, 11, 12, 13, 14, 15]
  | _ => [0, 1]

theorem run_bind {α β : Type} (x : Reading α) (f : α → Reading β) (log : List ℕ) :
    (x >>= f).run log = (f (x.run log).1).run (x.run log).2 := rfl

theorem run_pure {α : Type} (a : α) (log : List ℕ) : (pure a : Reading α).run log = (a, log) := rfl

theorem readByte_run (t : ℕ → Byte) (i : ℕ) (log : List ℕ) :
    (readByte t i).run log = (t i, log ++ [i]) := rfl

theorem read16_run (t : ℕ → Byte) (i : ℕ) (log : List ℕ) :
    (read16 t i).run log = (half t i, log ++ [i, i + 1]) := by
  simp only [read16, run_bind, run_pure, readByte_run, List.append_assoc, List.singleton_append, half]

theorem read32_run (t : ℕ → Byte) (i : ℕ) (log : List ℕ) :
    (read32 t i).run log = (word t i, log ++ [i, i + 1, i + 2, i + 3]) := by
  simp only [read32, run_bind, run_pure, read16_run, List.append_assoc, List.cons_append,
    List.nil_append, word]

theorem two_le_extent (type : Byte) : 2 ≤ extent type := by
  unfold extent
  split <;> norm_num

/-- A record of which all bytes that are read lie before the end is one that reaches up to it. -/
theorem bytesRead_lt_iff (type : Byte) (entry stop : ℕ) :
    (∀ i ∈ bytesRead type, entry + i < stop) ↔ entry + extent type ≤ stop := by
  have hlt : ∀ i ∈ bytesRead type, i < extent type := by
    unfold bytesRead extent
    split <;> decide
  have hlast : extent type - 1 ∈ bytesRead type := by
    unfold bytesRead extent
    split <;> decide
  constructor
  · intro h
    have := h _ hlast
    omega
  · intro h i hi
    have := hlt i hi
    omega

/-- What a turn of the loop stores. -/
theorem parseEntry_fst (t : ℕ → Byte) (entry : ℕ) (s : Statics) (log : List ℕ) :
    ((parseEntry t entry s).run log).1 = s.addRecord (fun i => t (entry + i)) := by
  simp only [parseEntry, run_bind, readByte_run, Statics.addRecord, Nat.add_zero]
  generalize (t entry).toNat = type
  split
  case h_2 => simp only [run_bind, run_pure, readByte_run, read32_run]; rfl
  case h_3 => simp only [run_bind, run_pure, readByte_run, read16_run, read32_run]; rfl
  case h_8 h1 h2 _ _ _ _ =>
    split
    · exact absurd rfl h1
    · exact absurd rfl h2
    · rfl
  all_goals rfl

/-- The bytes that a turn of the loop reads. -/
theorem mem_parseEntry_snd (t : ℕ → Byte) (entry : ℕ) (s : Statics) (log : List ℕ) (i : ℕ) :
    i ∈ ((parseEntry t entry s).run log).2 ↔
      i ∈ log ∨ i ∈ (bytesRead (t entry)).map (entry + ·) := by
  simp only [parseEntry, run_bind, readByte_run, bytesRead]
  split <;> simp only [run_bind, run_pure, readByte_run, read16_run, read32_run, List.mem_append,
    List.map_cons, List.map_nil, List.mem_cons, List.not_mem_nil, or_false] <;>
    grind

/-! ## The walk -/

section Walk

variable (t : ℕ → Byte) (s : Statics)

/-- The length in the table's header. -/
def tableLength : ℕ := (word t 4).toNat

/-- The loop comes by a record at `entry`. -/
def RecordAt (entry : ℕ) : Prop := Reached (recordLength t) (tableLength t) extendedHeaderSize entry

theorem parseMadt_eq (fuel : ℕ) :
    parseMadt t fuel s =
      walk (recordLength t) (tableLength t) (fun entry x => (parseEntry t entry x.1).run x.2) fuel
        extendedHeaderSize ({ s with lapicAddress := word t 36 }, [4, 5, 6, 7, 36, 37, 38, 39]) := by
  simp only [parseMadt, read32_run]
  rfl

/-- The static variables without the log. -/
theorem parseMadt_map_fst (fuel : ℕ) :
    (parseMadt t fuel s).map Prod.fst =
      walk (recordLength t) (tableLength t) (fun entry s => s.addRecord fun i => t (entry + i)) fuel
        extendedHeaderSize { s with lapicAddress := word t 36 } := by
  rw [parseMadt_eq]
  exact walk_map (fun entry x => parseEntry_fst t entry x.1 x.2) fuel extendedHeaderSize _

/-- The loop ends, and then after at most as many turns as the table has bytes, if and only if it
    comes by no record of length 0. -/
theorem parseMadt_returns_iff :
    ((∃ r, parseMadt t (tableLength t) s = some r) ↔ ∀ entry, RecordAt t entry → recordLength t entry ≠ 0) ∧
      ((∃ fuel r, parseMadt t fuel s = some r) ↔
        ∀ entry, RecordAt t entry → recordLength t entry ≠ 0) := by
  have hreturns : (∀ entry, RecordAt t entry → recordLength t entry ≠ 0) →
      ∃ r, parseMadt t (tableLength t) s = some r := by
    intro hpos
    rw [parseMadt_eq]
    exact walk_returns hpos (Nat.sub_le _ _) _
  have hends : ∀ fuel r, parseMadt t fuel s = some r →
      ∀ entry, RecordAt t entry → recordLength t entry ≠ 0 := by
    intro fuel r hparse entry hentry hzero
    rw [parseMadt_eq, walk_eq_none hentry hzero] at hparse
    exact absurd hparse (by simp)
  exact ⟨⟨fun ⟨r, hr⟩ => hends _ r hr, hreturns⟩,
    ⟨fun ⟨fuel, r, hr⟩ => hends fuel r hr, fun hpos => ⟨_, hreturns hpos⟩⟩⟩

/-- A table of 46 bytes whose one record has type 0 and length 0. -/
theorem parseMadt_hangs :
    let t : ℕ → Byte := fun i => if i = 4 then 46 else 0
    tableLength t = 46 ∧ ∀ fuel s, parseMadt t fuel s = none := by
  intro t
  have hlength : tableLength t = 46 := by decide
  refine ⟨hlength, fun fuel s => ?_⟩
  rw [parseMadt_eq]
  exact walk_eq_none (.first (by rw [hlength]; decide)) rfl fuel _

/-- On a table that holds its extended header, with records of length 2 or more, every byte read lies
    in the table if and only if every record that the loop comes by ends in it, taken as long as
    the structure of its type. -/
theorem parseMadt_reads_iff (hlength : extendedHeaderSize ≤ tableLength t)
    (hrecords : ∀ entry, RecordAt t entry → 2 ≤ recordLength t entry) :
    ∃ s' reads, parseMadt t (tableLength t) s = some (s', reads) ∧
      ((∀ i ∈ reads, i < tableLength t) ↔
        ∀ entry, RecordAt t entry → entry + extent (t entry) ≤ tableLength t) := by
  obtain ⟨⟨s', reads⟩, hparse⟩ := (parseMadt_returns_iff t s).1.mpr fun entry hentry =>
    Nat.ne_of_gt (Nat.lt_of_lt_of_le two_pos (hrecords entry hentry))
  refine ⟨s', reads, hparse, ?_⟩
  rw [parseMadt_eq] at hparse
  have hmem : ∀ i, i ∈ reads ↔ i ∈ [4, 5, 6, 7, 36, 37, 38, 39] ∨
      ∃ entry, RecordAt t entry ∧ i ∈ (bytesRead (t entry)).map (entry + ·) :=
    mem_walk_iff (fun entry x => mem_parseEntry_snd t entry x.1 x.2) hparse
  constructor
  · intro hreads entry hentry
    refine (bytesRead_lt_iff _ _ _).mp fun i hi => ?_
    exact hreads _ ((hmem _).mpr (.inr ⟨entry, hentry, List.mem_map_of_mem hi⟩))
  · intro hextent i hi
    obtain hheader | ⟨entry, hentry, hbytes⟩ := (hmem i).mp hi
    · have hmax : ∀ i ∈ [4, 5, 6, 7, 36, 37, 38, 39], i < extendedHeaderSize := by decide
      exact (hmax i hheader).trans_le hlength
    · obtain ⟨j, hj, rfl⟩ := List.mem_map.mp hbytes
      exact (bytesRead_lt_iff _ _ _).mpr (hextent entry hentry) j hj

end Walk

/-- A table of 52 bytes with one record of type 0 and length 8. -/
theorem parseMadt_reads_iff_local_apic :
    let t : ℕ → Byte := fun i => if i = 4 then 52 else if i = 45 then 8 else 0
    extendedHeaderSize ≤ tableLength t ∧ (∀ entry, RecordAt t entry → 2 ≤ recordLength t entry) ∧
      ∃ s' reads, parseMadt t 52 Statics.zero = some (s', reads) ∧ ∀ i ∈ reads, i < 52 := by
  intro t
  have hlength : tableLength t = 52 := by decide
  have hone : ∀ entry, RecordAt t entry → entry = 44 := by
    intro entry hentry
    refine (reached_iff.mp hentry).2.resolve_right fun hnext => ?_
    exact absurd (reached_iff.mp hnext).1 (by rw [hlength]; decide)
  have hrecords : ∀ entry, RecordAt t entry → 2 ≤ recordLength t entry := by
    intro entry hentry
    rw [hone entry hentry]
    decide
  have hheader : extendedHeaderSize ≤ tableLength t := by rw [hlength]; decide
  obtain ⟨s', reads, hparse, hreads⟩ := parseMadt_reads_iff t Statics.zero hheader hrecords
  rw [hlength] at hparse hreads
  refine ⟨hheader, hrecords, s', reads, hparse, hreads.mpr fun entry hentry => ?_⟩
  rw [hone entry hentry]
  decide

/-- A table of 46 bytes that ends behind the header of a type-1 record: the bytes 46 to 55 are read
    as well. -/
theorem parseMadt_reads_behind :
    let t : ℕ → Byte := fun i => if i = 4 then 46 else if i = 44 then 1 else if i = 45 then 2 else 0
    tableLength t = 46 ∧ (∀ entry, RecordAt t entry → 2 ≤ recordLength t entry) ∧
      (parseMadt t 46 Statics.zero).map Prod.snd =
        some [4, 5, 6, 7, 36, 37, 38, 39, 45, 44, 46, 48, 49, 50, 51, 52, 53, 54, 55] := by
  intro t
  have hlength : tableLength t = 46 := by decide
  refine ⟨hlength, fun entry hentry => ?_, by decide⟩
  obtain rfl | hnext := (reached_iff.mp hentry).2
  · decide
  · exact absurd (reached_iff.mp hnext).1 (by rw [hlength]; decide)

/-! ## Tables as the format has them -/

/-- The bytes `bs` are in memory from `off` on. -/
def Holds (t : ℕ → Byte) (off : ℕ) (bs : List Byte) : Prop :=
  ∀ i < bs.length, t (off + i) = bs.getD i 0

theorem Holds.split {t : ℕ → Byte} {off : ℕ} {bs cs : List Byte} (h : Holds t off (bs ++ cs)) :
    Holds t off bs ∧ Holds t (off + bs.length) cs := by
  unfold Holds at h
  rw [List.length_append] at h
  constructor
  · intro i hi
    rw [h i (by omega), List.getD_append _ _ _ _ hi]
  · intro i hi
    rw [Nat.add_assoc, h _ (by omega), List.getD_append_right _ _ _ _ (Nat.le_add_right _ _),
      Nat.add_sub_cancel_left]

/-- A record: its type, its own length, and at least the fields of its type. -/
structure Record where
  bytes : List Byte
  length_eq : (bytes.getD 1 0).toNat = bytes.length
  complete : extent (bytes.getD 0 0) ≤ bytes.length

namespace Record

def byte (r : Record) (i : ℕ) : Byte := r.bytes.getD i 0

/-- The I/O APIC of a record of type 1. -/
def ioapic? (r : Record) : Option Ioapic :=
  match (r.byte 0).toNat with
  | 1 => some (ioapicOf r.byte)
  | _ => none

/-- The override of a record of type 2. -/
def override? (r : Record) : Option IrqOverride :=
  match (r.byte 0).toNat with
  | 2 => some (overrideOf r.byte)
  | _ => none

end Record

/-- A table: an extended header that has the length of the whole, and the records behind it. -/
structure Madt where
  header : List Byte
  records : List Record
  header_length : header.length = extendedHeaderSize
  length_eq : tableLength (fun i => header.getD i 0) =
    extendedHeaderSize + (records.flatMap Record.bytes).length

namespace Madt

def bytes (m : Madt) : List Byte := m.header ++ m.records.flatMap Record.bytes

/-- The memory `t` starts with the table. -/
def In (m : Madt) (t : ℕ → Byte) : Prop := Holds t 0 m.bytes

def apicAddress (m : Madt) : BitVec 32 := word (fun i => m.header.getD i 0) 36

def ioapics (m : Madt) : List Ioapic := m.records.filterMap Record.ioapic?

def overrides (m : Madt) : List IrqOverride := m.records.filterMap Record.override?

/-- The first I/O APIC with an address. -/
def firstIoapic (m : Madt) : Option Ioapic := m.ioapics.find? Ioapic.located

/-- The override of the keyboard's interrupt. -/
def keyboardOverride (m : Madt) : Option IrqOverride := m.overrides.find? fun o => o.sourceIrq = 1

end Madt

/-! ### The records in memory -/

section Layout

variable {b b' : ℕ → Byte} {i : ℕ}

theorem half_congr (h : ∀ j < 2, b (i + j) = b' (i + j)) : half b i = half b' i := by
  have h0 : b i = b' i := h 0 two_pos
  unfold half
  rw [h0, h 1 one_lt_two]

theorem word_congr (h : ∀ j < 4, b (i + j) = b' (i + j)) : word b i = word b' i := by
  unfold word
  rw [half_congr fun j hj => h j (by omega),
    half_congr fun j hj => by simpa only [Nat.add_assoc] using h (2 + j) (by omega)]

/-- A record does what its bytes say up to its extent. -/
theorem addRecord_congr (h : ∀ i < extent (b' 0), b i = b' i) (s : Statics) :
    s.addRecord b = s.addRecord b' := by
  have htype : b 0 = b' 0 := h 0 (Nat.lt_of_lt_of_le two_pos (two_le_extent _))
  unfold Statics.addRecord
  rw [htype]
  unfold extent at h
  split
  case h_1 heq =>
    simp only [heq] at h
    unfold ioapicOf
    rw [h 2 (by norm_num), word_congr fun j hj => h (4 + j) (by omega),
      word_congr fun j hj => h (8 + j) (by omega)]
  case h_2 heq =>
    simp only [heq] at h
    unfold overrideOf
    rw [h 3 (by norm_num), word_congr fun j hj => h (4 + j) (by omega),
      half_congr fun j hj => h (8 + j) (by omega)]
  case h_3 => rfl

theorem recordLength_of_holds {t : ℕ → Byte} {off : ℕ} {r : Record} (h : Holds t off r.bytes) :
    recordLength t off = r.bytes.length ∧ recordLength t off ≠ 0 := by
  have htwo := (two_le_extent (r.bytes.getD 0 0)).trans r.complete
  have hlength : recordLength t off = r.bytes.length := by
    rw [recordLength, h 1 htwo]
    exact r.length_eq
  exact ⟨hlength, by omega⟩

/-- Records that are in memory one behind the other are a layout. -/
theorem layout_of_holds {t : ℕ → Byte} {off : ℕ} {rs : List Record}
    (h : Holds t off (rs.flatMap Record.bytes)) :
    Layout (recordLength t) (fun off r => Holds t off r.bytes) off rs
      (off + (rs.flatMap Record.bytes).length) := by
  induction rs generalizing off with
  | nil => rfl
  | cons r rs ih =>
    rw [List.flatMap_cons] at h ⊢
    obtain ⟨hrecord, hrest⟩ := h.split
    obtain ⟨hlength, hpos⟩ := recordLength_of_holds hrecord
    refine ⟨hrecord, hpos, ?_⟩
    rw [List.length_append, ← Nat.add_assoc, hlength]
    exact ih hrest

end Layout

/-! ### What is stored -/

section Stored

variable {s : Statics}

/-- The three kinds of records. -/
theorem addRecord_cases (s : Statics) (r : Record) :
    (∃ a, r.ioapic? = some a ∧ r.override? = none ∧ s.addRecord r.byte = s.addIoapic a) ∨
    (∃ o, r.ioapic? = none ∧ r.override? = some o ∧ s.addRecord r.byte = s.addOverride o) ∨
    (r.ioapic? = none ∧ r.override? = none ∧ s.addRecord r.byte = s) := by
  unfold Record.ioapic? Record.override? Statics.addRecord
  generalize (r.byte 0).toNat = type
  by_cases hone : type = 1
  · subst hone
    exact .inl ⟨_, rfl, rfl, rfl⟩
  by_cases htwo : type = 2
  · subst htwo
    exact .inr (.inl ⟨_, rfl, rfl, rfl⟩)
  · refine .inr (.inr ⟨?_, ?_, ?_⟩)
    all_goals
      split
      all_goals first | rfl | contradiction

theorem length_kept (s : Statics) : s.kept.length = s.numOverrides := by
  rw [Statics.kept, List.length_map, List.length_range]

theorem addOverride_kept (hroom : s.kept.length < 16) (o : IrqOverride) :
    (s.addOverride o).kept = s.kept ++ [o] := by
  rw [length_kept] at hroom
  unfold Statics.addOverride Statics.kept
  rw [if_pos hroom]
  exact map_range_update _ _ _

theorem addIoapic_kept (s : Statics) (a : Ioapic) : (s.addIoapic a).kept = s.kept := by
  unfold Statics.addIoapic
  split_ifs <;> rfl

theorem addIoapic_ioapic (s : Statics) (a : Ioapic) :
    (s.addIoapic a).ioapic = if s.ioapic.located then s.ioapic else a := by
  unfold Statics.addIoapic
  by_cases haddress : s.ioapicAddress = 0
  · rw [if_pos haddress, if_neg fun h => (Ioapic.located_iff _).mp h haddress]
    rfl
  · rw [if_neg haddress, if_pos ((Ioapic.located_iff _).mpr haddress)]

theorem addOverride_ioapic (s : Statics) (o : IrqOverride) : (s.addOverride o).ioapic = s.ioapic := by
  unfold Statics.addOverride
  split_ifs <;> rfl

theorem addRecord_lapicAddress (s : Statics) (b : ℕ → Byte) :
    (s.addRecord b).lapicAddress = s.lapicAddress := by
  unfold Statics.addRecord Statics.addIoapic Statics.addOverride
  split <;> try split_ifs
  all_goals rfl

/-- The static variables after some records. -/
def Statics.addRecords (s : Statics) (rs : List Record) : Statics :=
  rs.foldl (fun s r => s.addRecord r.byte) s

theorem addRecords_lapicAddress (s : Statics) (rs : List Record) :
    (s.addRecords rs).lapicAddress = s.lapicAddress := by
  induction rs generalizing s with
  | nil => rfl
  | cons r rs ih => exact (ih _).trans (addRecord_lapicAddress s r.byte)

/-- While there is room every override is stored, in the order of the table. -/
theorem addRecords_kept (rs : List Record)
    (hroom : s.kept.length + (rs.filterMap Record.override?).length ≤ 16) :
    (s.addRecords rs).kept = s.kept ++ rs.filterMap Record.override? := by
  induction rs generalizing s with
  | nil => exact (List.append_nil _).symm
  | cons r rs ih =>
    show ((s.addRecord r.byte).addRecords rs).kept = _
    obtain ⟨a, _, hnone, heq⟩ | ⟨o, _, hsome, heq⟩ | ⟨_, hnone, heq⟩ := addRecord_cases s r
    · rw [List.filterMap_cons_none hnone] at hroom ⊢
      rw [heq, ih (by rwa [addIoapic_kept]), addIoapic_kept]
    · rw [List.filterMap_cons_some hsome] at hroom ⊢
      rw [List.length_cons] at hroom
      have hkept := addOverride_kept (by omega : s.kept.length < 16) o
      rw [heq, ih (by rw [hkept, List.length_append, List.length_singleton]; omega), hkept,
        List.append_assoc, List.singleton_append]
    · rw [List.filterMap_cons_none hnone] at hroom ⊢
      rw [heq, ih hroom]

/-- The I/O APIC that is left in the variables: the first with an address, or else the last one. -/
def chosen (before : Ioapic) (as : List Ioapic) : Ioapic :=
  if before.located then before else ((as.find? Ioapic.located).or as.getLast?).getD before

theorem chosen_cons (before a : Ioapic) (as : List Ioapic) :
    chosen before (a :: as) = chosen (if before.located then before else a) as := by
  unfold chosen
  cases hbefore : before.located with
  | true => simp [hbefore]
  | false =>
    cases ha : a.located with
    | true => simp [ha]
    | false => simp [ha, List.getLast?_cons]

theorem addRecords_ioapic (s : Statics) (rs : List Record) :
    (s.addRecords rs).ioapic = chosen s.ioapic (rs.filterMap Record.ioapic?) := by
  induction rs generalizing s with
  | nil => exact (ite_self _).symm
  | cons r rs ih =>
    show ((s.addRecord r.byte).addRecords rs).ioapic = _
    rw [ih]
    obtain ⟨a, hsome, _, heq⟩ | ⟨o, hnone, _, heq⟩ | ⟨hnone, _, heq⟩ := addRecord_cases s r
    · rw [List.filterMap_cons_some hsome, chosen_cons, heq, addIoapic_ioapic]
    · rw [List.filterMap_cons_none hnone, heq, addOverride_ioapic]
    · rw [List.filterMap_cons_none hnone, heq]

end Stored

/-! ### The whole table -/

/-- Sixteen places are enough for overrides of different sources below 16. -/
theorem length_overrides_le {os : List IrqOverride} (hsource : ∀ o ∈ os, o.sourceIrq.toNat < 16)
    (hnodup : (os.map IrqOverride.sourceIrq).Nodup) : os.length ≤ 16 := by
  have hinj : ((os.map IrqOverride.sourceIrq).map BitVec.toNat).Nodup :=
    hnodup.map fun _ _ h => BitVec.eq_of_toNat_eq h
  have hsub : ((os.map IrqOverride.sourceIrq).map BitVec.toNat).toFinset ⊆ Finset.range 16 := by
    intro n hn
    obtain ⟨source, hsrc, rfl⟩ := List.mem_map.mp (List.mem_toFinset.mp hn)
    obtain ⟨o, ho, rfl⟩ := List.mem_map.mp hsrc
    exact Finset.mem_range.mpr (hsource o ho)
  have hcard := Finset.card_le_card hsub
  rwa [List.toFinset_card_of_nodup hinj, List.length_map, List.length_map, Finset.card_range] at hcard

/-- The table in memory is walked record by record. -/
theorem parseMadt_of_in {m : Madt} {t : ℕ → Byte} (hin : m.In t) (s : Statics) :
    (parseMadt t (tableLength t) s).map Prod.fst =
      some (({ s with lapicAddress := m.apicAddress } : Statics).addRecords m.records) := by
  obtain ⟨hheader, hrecords⟩ := Holds.split hin
  rw [Nat.zero_add, m.header_length] at hrecords
  have hword : ∀ k, k + 4 ≤ extendedHeaderSize → word t k = word (fun i => m.header.getD i 0) k :=
    fun k hk => word_congr fun j hj => by
      have hbyte := hheader (k + j) (by rw [m.header_length]; omega)
      rwa [Nat.zero_add] at hbyte
  have htable : tableLength t = extendedHeaderSize + (m.records.flatMap Record.bytes).length := by
    rw [← m.length_eq, tableLength, tableLength, hword 4 (by decide)]
  have hlayout := layout_of_holds hrecords
  rw [← htable] at hlayout
  rw [parseMadt_map_fst, hword 36 (by decide)]
  refine walk_of_layout (fun off r s hholds => ?_) hlayout ?_ _
  · exact addRecord_congr (fun i hi => hholds i (hi.trans_le r.complete)) s
  · have hle := hlayout.length_le
    omega

/-- What is left of the I/O APICs in the zeroed variables. -/
theorem chosen_zero (as : List Ioapic) :
    (chosen Statics.zero.ioapic as).address = ((as.find? Ioapic.located).map Ioapic.address).getD 0 ∧
      (chosen Statics.zero.ioapic as).id =
        (((as.find? Ioapic.located).or as.getLast?).map Ioapic.id).getD 0 := by
  have hzero : Statics.zero.ioapic.located = false := by decide
  unfold chosen
  rw [hzero]
  cases hfind : as.find? Ioapic.located with
  | some a => exact ⟨rfl, rfl⟩
  | none =>
    cases hlast : as.getLast? with
    | none => exact ⟨rfl, rfl⟩
    | some a =>
      have hnone := List.find?_eq_none.mp hfind a (List.mem_of_getLast? hlast)
      exact ⟨not_not.mp (mt (Ioapic.located_iff a).mpr hnone), rfl⟩

/-- From the zeroed variables `parse_madt` finds in a table whose overrides are of different sources
    below 16: the address in the header, the first I/O APIC with an address (of those without
    one the last leaves its id), and all overrides, that of the keyboard among them. -/
theorem parseMadt_routes (m : Madt) {t : ℕ → Byte} (hin : m.In t)
    (hsource : ∀ o ∈ m.overrides, o.sourceIrq.toNat < 16)
    (hnodup : (m.overrides.map IrqOverride.sourceIrq).Nodup) :
    ∃ s reads, parseMadt t (tableLength t) Statics.zero = some (s, reads) ∧
      getLapicAddress s = m.apicAddress ∧
      getIoapicAddress s = (m.firstIoapic.map Ioapic.address).getD 0 ∧
      getIoapicId s = ((m.firstIoapic.or m.ioapics.getLast?).map Ioapic.id).getD 0 ∧
      getKeyboardGlobalIrq s = (m.keyboardOverride.map IrqOverride.globalIrq).getD 1 ∧
      getKeyboardIrqFlags s = (m.keyboardOverride.map IrqOverride.flags).getD 0 ∧
      s.kept = m.overrides := by
  obtain ⟨⟨s, reads⟩, hparse, hs⟩ := Option.map_eq_some_iff.mp (parseMadt_of_in hin Statics.zero)
  let start : Statics := { Statics.zero with lapicAddress := m.apicAddress }
  obtain rfl : s = start.addRecords m.records := hs
  have hkept : (start.addRecords m.records).kept = m.overrides :=
    addRecords_kept m.records (Nat.le_trans (Nat.le_of_eq (Nat.zero_add _))
      (length_overrides_le hsource hnodup))
  have hioapic : (start.addRecords m.records).ioapic = chosen Statics.zero.ioapic m.ioapics :=
    addRecords_ioapic start m.records
  obtain ⟨haddress, hid⟩ := chosen_zero m.ioapics
  rw [← hioapic] at haddress hid
  have hkeyboard : (start.addRecords m.records).keyboardOverride = m.keyboardOverride := by
    rw [Statics.keyboardOverride, hkept]
    rfl
  refine ⟨_, reads, hparse, addRecords_lapicAddress start m.records, haddress, hid, ?_, ?_, hkept⟩
  · rw [getKeyboardGlobalIrq, hkeyboard]
  · rw [getKeyboardIrqFlags, hkeyboard]

/-- An I/O APIC, a record of an unknown type and an override of the keyboard's interrupt. -/
theorem parseMadt_routes_keyboard :
    let ioapic : Record := ⟨[1, 12, 2, 0, 0, 0, 0xC0, 0xFE, 0, 0, 0, 0], rfl, by decide⟩
    let unknown : Record := ⟨[0x80, 3, 0], rfl, by decide⟩
    let override : Record := ⟨[2, 10, 0, 1, 9, 0, 0, 0, 0x0D, 0], rfl, by decide⟩
    let m : Madt := ⟨(List.replicate 44 0).set 4 69, [ioapic, unknown, override], rfl, by decide⟩
    ∃ s reads, parseMadt (fun i => m.bytes.getD i 0) 69 Statics.zero = some (s, reads) ∧
      getIoapicAddress s = 0xFEC00000 ∧ getIoapicId s = 2 ∧
      getKeyboardGlobalIrq s = 9 ∧ getKeyboardIrqFlags s = 0x0D := by
  intro ioapic unknown override m
  have hin : m.In fun i => m.bytes.getD i 0 := fun i _ => by rw [Nat.zero_add]
  obtain ⟨s, reads, hparse, -, haddress, hid, hirq, hflags, -⟩ :=
    parseMadt_routes m hin (by decide) (by decide)
  have hlength : tableLength (fun i => m.bytes.getD i 0) = 69 := by decide
  rw [hlength] at hparse
  exact ⟨s, reads, hparse, haddress.trans (by decide), hid.trans (by decide), hirq.trans (by decide),
    hflags.trans (by decide)⟩

/-- A table whose only I/O APIC has the id 7 and the address 0. -/
theorem ioapic_without_address :
    let ioapic : Record := ⟨[1, 12, 7, 0, 0, 0, 0, 0, 0, 0, 0, 0], rfl, by decide⟩
    let m : Madt := ⟨(List.replicate 44 0).set 4 56, [ioapic], rfl, by decide⟩
    m.firstIoapic = none ∧ m.overrides = [] ∧
      (parseMadt (fun i => m.bytes.getD i 0) 56 Statics.zero).map (fun r => getIoapicId r.1) =
        some 7 := by
  decide

end HorizonOS.Acpi
