import HorizonOS.Acpi.Madt
import HorizonOS.Libc.String
import HorizonOS.Paging.Range

/-!
# The search for the MADT

Model of `find_madt` (kernel/apic/rsdp.c:126–305) on both architectures. The root table is the XSDT
with 8-byte entries or the RSDT with 4-byte entries; the four loops are one with the entries as a
parameter. Memory is what is read once it is mapped; the ranges that are mapped on the way are
logged.

The number of entries is an unsigned difference with the size of the header, in 64 bits on x86_64
and in 32 on i386. It wraps for a table shorter than its header.

* `findMadt_exact_iff`: only the entries of the root table are looked at, and the first MADT among
  them is returned, exactly if the table is not shorter than its header, and on i386 no entry of the
  XSDT above 4 GiB is taken for one below.
* `madt_mapped_iff`: when the ranges that are mapped on x86_64 cover the MADT.
-/

namespace HorizonOS.Acpi

open HorizonOS.Lib HorizonOS.Libc

/-! ## Model -/

/-- The bytes from `a` on. -/
def bytesAt {w : ℕ} (mem : BitVec w → Byte) (a : BitVec w) : ℕ → Byte :=
  fun i => mem (a + BitVec.ofNat w i)

/-- The 64-bit word at `i`. -/
def quad (b : ℕ → Byte) (i : ℕ) : BitVec 64 := word b (i + 4) ++ word b i

/-- `"APIC"`. -/
def signature : ℕ → Byte := fun i => (['A', 'P', 'I', 'C'].map ascii).getD i 0

/-- What `find_madt` returns, the indices of the entries it reads, the tables whose signature it
    compares, with the index of their entry, and the physical addresses that it passes to
    `map_physical_range`, with 4096 as the size. -/
structure Search (w : ℕ) where
  table : BitVec w
  inspected : List ℕ
  opened : List (ℕ × BitVec w)
  mapped : List (BitVec w)

/-- The search over `count` entries from the `i`-th on. `entry` gives the physical and the virtual
    address of a table, or `none` for an entry that is skipped. -/
def searchEntries {w : ℕ} (mem : BitVec w → Byte) (entry : ℕ → Option (BitVec w × BitVec w)) :
    (count : ℕ) → (i : ℕ) → Search w
  | 0, _ => ⟨0, [], [], []⟩
  | count + 1, i =>
    match entry i with
    | none =>
      let r := searchEntries mem entry count (i + 1)
      { r with inspected := i :: r.inspected }
    | some (phys, table) =>
      if strncmp (bytesAt mem table) signature 4 0 = 0 then ⟨table, [i], [(i, table)], [phys]⟩
      else
        let r := searchEntries mem entry count (i + 1)
        ⟨r.table, i :: r.inspected, (i, table) :: r.opened, phys :: r.mapped⟩

/-- The root table is mapped first. -/
def Search.behind {w : ℕ} (r : Search w) (root : BitVec w) : Search w :=
  { r with mapped := root :: r.mapped }

namespace X86

/-- `num_entries` (rsdp.c:169–170 and 253–254): `sizeof` is a 64-bit number, the result 32 bits. -/
def numEntries (length : BitVec 32) (size : BitVec 64) : BitVec 32 :=
  ((length.setWidth 64 - 36) / size).setWidth 32

/-- The XSDT loop (rsdp.c:174–217). -/
def xsdtEntry (xsdt : ℕ → Byte) (hhdmOffset : Addr) (i : ℕ) : Option (Addr × Addr) :=
  let tablePhys := quad xsdt (36 + 8 * i)
  some (tablePhys, tablePhys + hhdmOffset)

/-- The RSDT loop (rsdp.c:258–300). -/
def rsdtEntry (rsdt : ℕ → Byte) (hhdmOffset : Addr) (i : ℕ) : Option (Addr × Addr) :=
  let tablePhys := (word rsdt (36 + 4 * i)).setWidth 64
  some (tablePhys, tablePhys + hhdmOffset)

/-- `find_madt(rsdp_addr)` on x86_64. -/
def findMadt (mem : Mem) (hhdmOffset rsdpAddr : Addr) : Search 64 :=
  if rsdpAddr = 0 then ⟨0, [], [], []⟩
  else
    let rsdp := bytesAt mem rsdpAddr
    if 2 ≤ (rsdp 15).toNat then
      let xsdtPhys := quad rsdp 24
      let xsdt := bytesAt mem (xsdtPhys + hhdmOffset)
      (searchEntries mem (xsdtEntry xsdt hhdmOffset) (numEntries (word xsdt 4) 8).toNat 0).behind
        xsdtPhys
    else
      let rsdtPhys := (word rsdp 16).setWidth 64
      let rsdt := bytesAt mem (rsdtPhys + hhdmOffset)
      (searchEntries mem (rsdtEntry rsdt hhdmOffset) (numEntries (word rsdt 4) 4).toNat 0).behind
        rsdtPhys

end X86

namespace I386

/-- `num_entries` (rsdp.c:169–170 and 253–254): all 32 bits. -/
def numEntries (length size : BitVec 32) : BitVec 32 := (length - 36) / size

/-- The addresses that both loops and the RSDT itself are checked for (rsdp.c:197, 235 and 280). -/
def invalidAddress (a : BitVec 32) : Bool := a < 0x1000 ∨ 0x40000000 ≤ a

/-- The XSDT loop (rsdp.c:174–217): the entry is truncated before the check. -/
def xsdtEntry (xsdt : ℕ → Byte) (i : ℕ) : Option (BitVec 32 × BitVec 32) :=
  let tableAddr := (quad xsdt (36 + 8 * i)).setWidth 32
  if invalidAddress tableAddr then none else some (tableAddr, tableAddr)

/-- The RSDT loop (rsdp.c:258–300). -/
def rsdtEntry (rsdt : ℕ → Byte) (i : ℕ) : Option (BitVec 32 × BitVec 32) :=
  let tableAddr := word rsdt (36 + 4 * i)
  if invalidAddress tableAddr then none else some (tableAddr, tableAddr)

/-- `find_madt(rsdp_addr)` on i386. The XSDT itself is not mapped. -/
def findMadt (mem : BitVec 32 → Byte) (rsdpAddr : BitVec 32) : Search 32 :=
  if rsdpAddr = 0 then ⟨0, [], [], []⟩
  else
    let rsdp := bytesAt mem rsdpAddr
    if 2 ≤ (rsdp 15).toNat then
      let xsdtAddr := quad rsdp 24
      if 0x100000000 ≤ xsdtAddr then ⟨0, [], [], []⟩
      else
        let xsdt := bytesAt mem (xsdtAddr.setWidth 32)
        searchEntries mem (xsdtEntry xsdt) (numEntries (word xsdt 4) 8).toNat 0
    else
      let rsdtAddr := word rsdp 16
      if invalidAddress rsdtAddr then ⟨0, [], [], []⟩
      else
        let rsdt := bytesAt mem rsdtAddr
        (searchEntries mem (rsdtEntry rsdt) (numEntries (word rsdt 4) 4).toNat 0).behind rsdtAddr

end I386

/-! ## Specification -/

section Spec

variable {w : ℕ}

/-- The table starts with `APIC`. -/
def isMadt (mem : BitVec w → Byte) (table : BitVec w) : Bool :=
  (List.range 4).all fun i => bytesAt mem table i = signature i

/-- The MADT at an entry. -/
def madtAt (mem : BitVec w → Byte) (entry : ℕ → Option (BitVec w)) (i : ℕ) : Option (BitVec w) :=
  (entry i).filter (isMadt mem)

/-- The entries that a root table of this length has. -/
def entryCount (length size : ℕ) : ℕ := if 36 ≤ length then (length - 36) / size else 0

/-- The search is one over the first `n` entries: it reads no others, opens only the tables that they
    name, and returns the first MADT among these, or 0. -/
structure Exact (mem : BitVec w → Byte) (entry : ℕ → Option (BitVec w)) (n : ℕ) (r : Search w) :
    Prop where
  inspected : ∀ i ∈ r.inspected, i < n
  opened : ∀ p ∈ r.opened, entry p.1 = some p.2
  table : r.table = ((List.range n).findSome? (madtAt mem entry)).getD 0

/-- The table that an entry names on i386, if it is one that can be used. -/
def usable (a : ℕ) : Option (BitVec 32) :=
  if 0x1000 ≤ a ∧ a < 0x40000000 then some (BitVec.ofNat 32 a) else none

end Spec

/-! ## The loop -/

section Loop

variable {w : ℕ} {mem : BitVec w → Byte} {entry : ℕ → Option (BitVec w × BitVec w)}

/-- The comparison of `find_madt`. -/
theorem strncmp_signature (mem : BitVec w → Byte) (table : BitVec w) :
    strncmp (bytesAt mem table) signature 4 0 = 0 ↔ isMadt mem table = true := by
  rw [strncmp_eq_zero_iff (by decide), isMadt, List.all_eq_true]
  simp only [Nat.zero_add, List.mem_range, decide_eq_true_iff]

/-- The virtual addresses of the entries. -/
def tables (entry : ℕ → Option (BitVec w × BitVec w)) (i : ℕ) : Option (BitVec w) :=
  (entry i).map Prod.snd

/-- The three ways of one turn of the loop. -/
theorem searchEntries_cases (mem : BitVec w → Byte) (entry : ℕ → Option (BitVec w × BitVec w))
    (count i : ℕ) :
    let r := searchEntries mem entry count (i + 1)
    let r' := searchEntries mem entry (count + 1) i
    (∃ phys table, entry i = some (phys, table) ∧ madtAt mem (tables entry) i = some table ∧
      r' = ⟨table, [i], [(i, table)], [phys]⟩) ∨
    (∃ phys table, entry i = some (phys, table) ∧ madtAt mem (tables entry) i = none ∧
      r' = ⟨r.table, i :: r.inspected, (i, table) :: r.opened, phys :: r.mapped⟩) ∨
    (entry i = none ∧ madtAt mem (tables entry) i = none ∧
      r' = { r with inspected := i :: r.inspected }) := by
  intro r r'
  have hr' : r' = searchEntries mem entry (count + 1) i := rfl
  rw [searchEntries] at hr'
  unfold madtAt tables
  cases hentry : entry i with
  | none =>
    rw [hentry] at hr'
    exact .inr (.inr ⟨rfl, rfl, hr'⟩)
  | some p =>
    obtain ⟨phys, table⟩ := p
    rw [hentry] at hr'
    dsimp only at hr'
    by_cases hmadt : isMadt mem table = true
    · rw [if_pos ((strncmp_signature mem table).mpr hmadt)] at hr'
      exact .inl ⟨phys, table, rfl, by simp [hmadt], hr'⟩
    · rw [if_neg (mt (strncmp_signature mem table).mp hmadt)] at hr'
      exact .inr (.inl ⟨phys, table, rfl, by simp [hmadt], hr'⟩)

theorem searchEntries_inspected (count i : ℕ) :
    (∀ k ∈ (searchEntries mem entry count i).inspected, i ≤ k ∧ k < i + count) ∧
      (0 < count → i ∈ (searchEntries mem entry count i).inspected) := by
  induction count generalizing i with
  | zero => exact ⟨fun k hk => absurd hk (by simp [searchEntries]), fun h => absurd h (lt_irrefl 0)⟩
  | succ count ih =>
    have hrest := (ih (i + 1)).1
    have hcons : ∀ k ∈ i :: (searchEntries mem entry count (i + 1)).inspected,
        i ≤ k ∧ k < i + (count + 1) := by
      intro k hk
      obtain rfl | hk := List.mem_cons.mp hk
      · omega
      · have := hrest k hk
        omega
    obtain ⟨_, _, _, _, hr⟩ | ⟨_, _, _, _, hr⟩ | ⟨_, _, hr⟩ := searchEntries_cases mem entry count i <;>
      rw [hr]
    · exact ⟨fun k hk => by rw [List.mem_singleton.mp hk]; omega, fun _ => List.mem_singleton_self i⟩
    · exact ⟨hcons, fun _ => List.mem_cons_self⟩
    · exact ⟨hcons, fun _ => List.mem_cons_self⟩

/-- The entry at `k` is reached from `i` on and names a table. -/
def Opens (mem : BitVec w → Byte) (named : ℕ → Option (BitVec w)) (count i k : ℕ) (table : BitVec w) :
    Prop :=
  i ≤ k ∧ k < i + count ∧ named k = some table ∧ ∀ j, i ≤ j → j < k → madtAt mem named j = none

theorem opens_succ {named : ℕ → Option (BitVec w)} {count i k : ℕ} {table : BitVec w} :
    Opens mem named (count + 1) i k table ↔
      k = i ∧ named i = some table ∨
        madtAt mem named i = none ∧ Opens mem named count (i + 1) k table := by
  unfold Opens
  constructor
  · intro ⟨hik, hk, hnamed, hnone⟩
    by_cases heq : k = i
    · exact .inl ⟨heq, heq ▸ hnamed⟩
    · exact .inr ⟨hnone i le_rfl (by omega), by omega, by omega, hnamed,
        fun j hij hjk => hnone j (by omega) hjk⟩
  · intro h
    obtain ⟨rfl, hnamed⟩ | ⟨hi, hik, hk, hnamed, hnone⟩ := h
    · exact ⟨le_rfl, by omega, hnamed, fun j hij hjk => by omega⟩
    · refine ⟨by omega, by omega, hnamed, fun j hij hjk => ?_⟩
      obtain rfl | hlt := Nat.eq_or_lt_of_le hij
      · exact hi
      · exact hnone j hlt hjk

/-- The tables opened are those of the entries up to the first MADT. -/
theorem mem_searchEntries_opened (count i k : ℕ) (table : BitVec w) :
    (k, table) ∈ (searchEntries mem entry count i).opened ↔
      Opens mem (tables entry) count i k table := by
  induction count generalizing i with
  | zero => exact ⟨fun h => absurd h (by simp [searchEntries]), fun ⟨h, h', _⟩ => by omega⟩
  | succ count ih =>
    rw [opens_succ]
    obtain ⟨phys, table', hentry, hmadt, hr⟩ | ⟨phys, table', hentry, hmadt, hr⟩ | ⟨hentry, hmadt, hr⟩ :=
      searchEntries_cases mem entry count i
    · rw [hr, hmadt, tables, hentry]
      simp [eq_comm]
    · rw [hr, hmadt, ← ih, tables, hentry]
      simp [eq_comm]
    · rw [hr, hmadt, ← ih, tables, hentry]
      simp

theorem searchEntries_table (count i : ℕ) :
    (searchEntries mem entry count i).table =
      ((List.range' i count).findSome? (madtAt mem (tables entry))).getD 0 := by
  induction count generalizing i with
  | zero => rfl
  | succ count ih =>
    rw [List.range'_succ]
    obtain ⟨_, _, _, hmadt, hr⟩ | ⟨_, _, _, hmadt, hr⟩ | ⟨_, hmadt, hr⟩ :=
      searchEntries_cases mem entry count i <;> rw [hr, List.findSome?_cons, hmadt]
    · rfl
    · exact ih (i + 1)
    · exact ih (i + 1)

/-- A table that is returned is that of an entry, whose physical address was mapped last. -/
theorem searchEntries_found {count i : ℕ} (h : (searchEntries mem entry count i).table ≠ 0) :
    ∃ k phys, entry k = some (phys, (searchEntries mem entry count i).table) ∧
      (searchEntries mem entry count i).mapped.getLast? = some phys := by
  induction count generalizing i with
  | zero => exact absurd rfl h
  | succ count ih =>
    obtain ⟨phys, table, hentry, _, hr⟩ | ⟨phys, table, _, _, hr⟩ | ⟨_, _, hr⟩ :=
      searchEntries_cases mem entry count i
    · rw [hr]
      exact ⟨i, phys, hentry, rfl⟩
    · rw [hr] at h ⊢
      obtain ⟨k, phys', hk, hlast⟩ := ih h
      exact ⟨k, phys', hk, by rw [List.getLast?_cons, hlast]; rfl⟩
    · rw [hr] at h ⊢
      exact ih h

end Loop

/-! ## Searches over the right entries -/

section Exact

variable {w : ℕ} {mem : BitVec w → Byte} {entry : ℕ → Option (BitVec w × BitVec w)}
  {named : ℕ → Option (BitVec w)}

/-- Let the loop use every entry that names a table. It is exact over `n` entries if and only if every
    other entry that it would use comes behind the first MADT. -/
theorem searchEntries_exact_iff (hnamed : ∀ i table, named i = some table → tables entry i = some table)
    (n : ℕ) :
    Exact mem named n (searchEntries mem entry n 0) ↔
      ∀ i < n, tables entry i ≠ named i → ∃ j < i, madtAt mem named j ≠ none := by
  have hmadt : ∀ j, madtAt mem named j ≠ none → madtAt mem (tables entry) j = madtAt mem named j := by
    intro j hj
    unfold madtAt at hj ⊢
    cases hname : named j with
    | none => exact absurd (by rw [hname]; rfl) hj
    | some table => rw [hnamed j table hname]
  constructor
  · intro hexact i
    induction i using Nat.strong_induction_on with
    | _ i ih =>
      intro hi hne
      by_contra hno
      have hbefore : ∀ j < i, madtAt mem named j = none := fun j hj => by
        by_contra hj'
        exact hno ⟨j, hj, hj'⟩
      -- up to here the loop has used the entries that it should use
      have hsame : ∀ j < i, tables entry j = named j := by
        intro j hj
        by_contra hj'
        obtain ⟨k, hk, hk'⟩ := ih j hj (hj.trans hi) hj'
        exact hk' (hbefore k (hk.trans hj))
      obtain ⟨table, htable⟩ : ∃ table, tables entry i = some table := by
        by_contra hnone
        have hentry : tables entry i = none := Option.eq_none_iff_forall_ne_some.mpr
          fun table h => hnone ⟨table, h⟩
        cases hname : named i with
        | none => exact hne (hentry.trans hname.symm)
        | some table => exact hnone ⟨table, hnamed i table hname⟩
      have hopen : (i, table) ∈ (searchEntries mem entry n 0).opened := by
        refine (mem_searchEntries_opened n 0 i table).mpr ⟨i.zero_le, by omega, htable, ?_⟩
        intro j _ hj
        have hj' := hbefore j hj
        unfold madtAt at hj' ⊢
        rwa [hsame j hj]
      exact hne (htable.trans (hexact.opened _ hopen).symm)
  · intro hlate
    refine ⟨fun k hk => ?_, fun p hp => ?_, ?_⟩
    · have := (searchEntries_inspected n 0).1 k hk
      omega
    · obtain ⟨k, table⟩ := p
      obtain ⟨_, hk, htable, hnone⟩ := (mem_searchEntries_opened n 0 k table).mp hp
      by_contra hne
      obtain ⟨j, hj, hj'⟩ := hlate k (by omega) fun h => hne (h ▸ htable)
      exact hj' ((hmadt j hj').symm.trans (hnone j j.zero_le hj))
    · rw [searchEntries_table, ← List.range_eq_range']
      congr 1
      refine findSome?_range_congr fun i hi hne => hlate i hi fun heq => hne ?_
      unfold madtAt
      rw [heq]

/-- The same for a number of entries that is right exactly if the table holds its header. -/
theorem searchEntries_exact_iff_of_count {length size count : ℕ}
    (hnamed : ∀ i table, named i = some table → tables entry i = some table)
    (hcount : 36 ≤ length → count = (length - 36) / size) (hwrap : length < 36 → 0 < count) :
    Exact mem named (entryCount length size) (searchEntries mem entry count 0) ↔
      36 ≤ length ∧ ∀ i < entryCount length size, tables entry i ≠ named i →
        ∃ j < i, madtAt mem named j ≠ none := by
  by_cases hlength : 36 ≤ length
  · rw [hcount hlength, entryCount, if_pos hlength, searchEntries_exact_iff hnamed]
    exact (and_iff_right hlength).symm
  · refine ⟨fun hexact => ?_, fun h => absurd h.1 hlength⟩
    have hzero := hexact.inspected 0 ((searchEntries_inspected count 0).2 (hwrap (by omega)))
    rw [entryCount, if_neg hlength] at hzero
    exact absurd hzero (lt_irrefl 0)

theorem exact_behind {n : ℕ} {r : Search w} (root : BitVec w) :
    Exact mem named n (r.behind root) ↔ Exact mem named n r :=
  ⟨fun h => ⟨h.inspected, h.opened, h.table⟩, fun h => ⟨h.inspected, h.opened, h.table⟩⟩

end Exact

/-! ## The four loops -/

/-- The number of entries of x86_64: right for a table that holds its header, and never 0 for one that
    does not. -/
theorem X86.toNat_numEntries (length : BitVec 32) {size : BitVec 64} (hsize : size = 8 ∨ size = 4) :
    (36 ≤ length.toNat → (X86.numEntries length size).toNat = (length.toNat - 36) / size.toNat) ∧
      (length.toNat < 36 → 0 < (X86.numEntries length size).toNat) := by
  have hlt := length.isLt
  have hheader : (36 : BitVec 64).toNat = 36 := rfl
  have hsize' : size.toNat = 8 ∨ size.toNat = 4 := hsize.imp (congrArg BitVec.toNat) (congrArg BitVec.toNat)
  unfold X86.numEntries
  rw [BitVec.toNat_setWidth, BitVec.toNat_udiv, BitVec.toNat_sub, BitVec.toNat_setWidth,
    Nat.mod_eq_of_lt (hlt.trans (by norm_num)), hheader]
  obtain heq | heq := hsize'
  · rw [heq]
    omega
  · rw [heq]
    omega

/-- The same on i386. -/
theorem I386.toNat_numEntries (length : BitVec 32) {size : BitVec 32} (hsize : size = 8 ∨ size = 4) :
    (36 ≤ length.toNat → (I386.numEntries length size).toNat = (length.toNat - 36) / size.toNat) ∧
      (length.toNat < 36 → 0 < (I386.numEntries length size).toNat) := by
  have hlt := length.isLt
  have hheader : (36 : BitVec 32).toNat = 36 := rfl
  have hsize' : size.toNat = 8 ∨ size.toNat = 4 := hsize.imp (congrArg BitVec.toNat) (congrArg BitVec.toNat)
  unfold I386.numEntries
  rw [BitVec.toNat_udiv, BitVec.toNat_sub, hheader]
  obtain heq | heq := hsize'
  · rw [heq]
    omega
  · rw [heq]
    omega

theorem I386.invalidAddress_iff (a : BitVec 32) :
    I386.invalidAddress a = true ↔ ¬ (0x1000 ≤ a.toNat ∧ a.toNat < 0x40000000) := by
  have hlow : (0x1000 : BitVec 32).toNat = 0x1000 := rfl
  have hhigh : (0x40000000 : BitVec 32).toNat = 0x40000000 := rfl
  rw [I386.invalidAddress, decide_eq_true_iff, BitVec.lt_def, BitVec.le_def, hlow, hhigh]
  omega

theorem I386.usable_toNat (a : BitVec 32) :
    usable a.toNat = if I386.invalidAddress a then none else some a := by
  unfold usable
  by_cases h : 0x1000 ≤ a.toNat ∧ a.toNat < 0x40000000
  · rw [if_pos h, if_neg fun h' => (I386.invalidAddress_iff a).mp h' h, BitVec.ofNat_toNat,
      BitVec.setWidth_eq]
  · rw [if_neg h, if_pos ((I386.invalidAddress_iff a).mpr h)]

theorem I386.tables_rsdtEntry (rsdt : ℕ → Byte) (i : ℕ) :
    tables (I386.rsdtEntry rsdt) i = usable (word rsdt (36 + 4 * i)).toNat := by
  rw [I386.usable_toNat, tables, I386.rsdtEntry]
  split_ifs <;> rfl

/-- The truncated entry is looked at. -/
theorem I386.tables_xsdtEntry (xsdt : ℕ → Byte) (i : ℕ) :
    tables (I386.xsdtEntry xsdt) i = usable ((quad xsdt (36 + 8 * i)).toNat % 2 ^ 32) := by
  rw [← BitVec.toNat_setWidth, I386.usable_toNat, tables, I386.xsdtEntry]
  split_ifs <;> rfl

theorem usable_mod_ne_iff (a : ℕ) :
    usable (a % 2 ^ 32) ≠ usable a ↔ 2 ^ 32 ≤ a ∧ usable (a % 2 ^ 32) ≠ none := by
  by_cases hlow : a < 2 ^ 32
  · rw [Nat.mod_eq_of_lt hlow]
    exact ⟨fun h => absurd rfl h, fun h => absurd h.1 (Nat.not_le.mpr hlow)⟩
  · have hnone : usable a = none := if_neg (by omega)
    rw [hnone]
    exact (and_iff_right (Nat.not_lt.mp hlow)).symm

/-- `find_madt` is a search over the entries that the root table has: on x86_64 and for the RSDT on
    i386 if and only if the table is not shorter than its header, and for the XSDT on i386 if and
    only if moreover no entry above 4 GiB whose low half looks like an address comes before the first
    MADT. -/
theorem findMadt_exact_iff (mem : Mem) (hhdmOffset rsdpAddr : Addr) (mem' : BitVec 32 → Byte)
    (rsdpAddr' : BitVec 32) :
    (rsdpAddr ≠ 0 →
      let rsdp := bytesAt mem rsdpAddr
      let xsdt := bytesAt mem (quad rsdp 24 + hhdmOffset)
      let rsdt := bytesAt mem ((word rsdp 16).setWidth 64 + hhdmOffset)
      (2 ≤ (rsdp 15).toNat →
        (Exact mem (fun i => some (quad xsdt (36 + 8 * i) + hhdmOffset))
          (entryCount (tableLength xsdt) 8) (X86.findMadt mem hhdmOffset rsdpAddr) ↔
            36 ≤ tableLength xsdt)) ∧
      ((rsdp 15).toNat < 2 →
        (Exact mem (fun i => some ((word rsdt (36 + 4 * i)).setWidth 64 + hhdmOffset))
          (entryCount (tableLength rsdt) 4) (X86.findMadt mem hhdmOffset rsdpAddr) ↔
            36 ≤ tableLength rsdt))) ∧
    (rsdpAddr' ≠ 0 →
      let rsdp := bytesAt mem' rsdpAddr'
      let xsdt := bytesAt mem' ((quad rsdp 24).setWidth 32)
      let rsdt := bytesAt mem' (word rsdp 16)
      let address (i : ℕ) := (quad xsdt (36 + 8 * i)).toNat
      (2 ≤ (rsdp 15).toNat → (quad rsdp 24).toNat < 2 ^ 32 →
        (Exact mem' (fun i => usable (address i)) (entryCount (tableLength xsdt) 8)
          (I386.findMadt mem' rsdpAddr') ↔
            36 ≤ tableLength xsdt ∧ ∀ i < entryCount (tableLength xsdt) 8,
              2 ^ 32 ≤ address i → usable (address i % 2 ^ 32) ≠ none →
                ∃ j < i, madtAt mem' (fun i => usable (address i)) j ≠ none)) ∧
      ((rsdp 15).toNat < 2 → usable (word rsdp 16).toNat ≠ none →
        (Exact mem' (fun i => usable (word rsdt (36 + 4 * i)).toNat) (entryCount (tableLength rsdt) 4)
          (I386.findMadt mem' rsdpAddr') ↔ 36 ≤ tableLength rsdt))) := by
  constructor
  · intro hrsdp rsdp xsdt rsdt
    unfold X86.findMadt
    rw [if_neg hrsdp]
    refine ⟨fun hrev => ?_, fun hrev => ?_⟩
    · obtain ⟨hcount, hwrap⟩ := X86.toNat_numEntries (word xsdt 4) (.inl rfl)
      rw [if_pos hrev, exact_behind]
      refine Iff.trans (searchEntries_exact_iff_of_count ?_ hcount hwrap) ?_
      · exact fun _ _ h => h
      · exact and_iff_left fun _ _ h => absurd rfl h
    · obtain ⟨hcount, hwrap⟩ := X86.toNat_numEntries (word rsdt 4) (.inr rfl)
      rw [if_neg (Nat.not_le.mpr hrev), exact_behind]
      refine Iff.trans (searchEntries_exact_iff_of_count ?_ hcount hwrap) ?_
      · exact fun _ _ h => h
      · exact and_iff_left fun _ _ h => absurd rfl h
  · intro hrsdp rsdp xsdt rsdt address
    unfold I386.findMadt
    rw [if_neg hrsdp]
    refine ⟨fun hrev hroot => ?_, fun hrev hroot => ?_⟩
    · obtain ⟨hcount, hwrap⟩ := I386.toNat_numEntries (word xsdt 4) (.inl rfl)
      have hlow : ¬ (0x100000000 : BitVec 64) ≤ quad rsdp 24 := by
        rw [BitVec.le_def]
        exact Nat.not_le.mpr hroot
      have hnamed : ∀ i table, usable (address i) = some table →
          tables (I386.xsdtEntry xsdt) i = some table := by
        intro i table h
        rw [I386.tables_xsdtEntry]
        by_contra hne
        have hdiffer := ((usable_mod_ne_iff (address i)).mp fun heq => hne (heq.trans h)).1
        have hnone : usable (address i) = none := if_neg (by omega)
        exact absurd (hnone.symm.trans h) (by simp)
      rw [if_pos hrev, if_neg hlow]
      refine (searchEntries_exact_iff_of_count hnamed hcount hwrap).trans (and_congr_right' ?_)
      refine forall₂_congr fun i _ => ?_
      rw [I386.tables_xsdtEntry, usable_mod_ne_iff, and_imp]
    · obtain ⟨hcount, hwrap⟩ := I386.toNat_numEntries (word rsdt 4) (.inr rfl)
      have hvalid : I386.invalidAddress (word rsdp 16) ≠ true := fun h => by
        rw [I386.usable_toNat, if_pos h] at hroot
        exact hroot rfl
      rw [if_neg (Nat.not_le.mpr hrev), if_neg hvalid, exact_behind]
      refine (searchEntries_exact_iff_of_count (fun i table h => ?_) hcount hwrap).trans ?_
      · rw [I386.tables_rsdtEntry]
        exact h
      · exact and_iff_left fun i _ h => absurd (I386.tables_rsdtEntry rsdt i) h

/-- A root pointer at 0x1000, a root table of 44 bytes at 0x2000 and a MADT at 0x3000. -/
theorem findMadt_exact_iff_one_entry :
    let low (revision : Byte) (a : ℕ) : Byte :=
      ([(0x100F, revision), (0x1011, 0x20), (0x1019, 0x20), (0x2004, 44), (0x2025, 0x30),
        (0x3000, 0x41), (0x3001, 0x50), (0x3002, 0x49), (0x3003, 0x43)].lookup a).getD 0
    let mem64 (revision : Byte) : Mem := fun a => low revision a.toNat
    let mem32 (revision : Byte) : BitVec 32 → Byte := fun a => low revision a.toNat
    (X86.findMadt (mem64 2) 0 0x1000).table = 0x3000 ∧ (X86.findMadt (mem64 0) 0 0x1000).table = 0x3000 ∧
      (I386.findMadt (mem32 2) 0x1000).table = 0x3000 ∧
      (I386.findMadt (mem32 0) 0x1000).table = 0x3000 := by
  intro low mem64 mem32
  have hboth := fun revision =>
    findMadt_exact_iff (mem64 revision) 0 0x1000 (mem32 revision) 0x1000
  have h64 := fun revision => (hboth revision).1 (by decide)
  have h32 := fun revision => (hboth revision).2 (by decide)
  refine ⟨?_, ?_, ?_, ?_⟩
  · exact (((h64 2).1 (by decide)).mpr (by decide)).table.trans (by decide)
  · exact (((h64 0).2 (by decide)).mpr (by decide)).table.trans (by decide)
  · exact (((h32 2).1 (by decide) (by decide)).mpr (by decide)).table.trans (by decide)
  · exact (((h32 0).2 (by decide) (by decide)).mpr (by decide)).table.trans (by decide)

/-- A root table of 35 bytes has no entries, but the first is looked at and its table returned. On
    i386 so is that of an entry above 4 GiB. -/
theorem findMadt_reads_behind :
    let low (length high : Byte) (a : ℕ) : Byte :=
      ([(0x100F, 2), (0x1019, 0x20), (0x2004, length), (0x2025, 0x30), (0x2028, high), (0x3000, 0x41),
        (0x3001, 0x50), (0x3002, 0x49), (0x3003, 0x43)].lookup a).getD 0
    let mem64 (length high : Byte) : Mem := fun a => low length high a.toNat
    let mem32 (length high : Byte) : BitVec 32 → Byte := fun a => low length high a.toNat
    (entryCount 35 8 = 0 ∧ (X86.findMadt (mem64 35 0) 0 0x1000).inspected = [0] ∧
      (X86.findMadt (mem64 35 0) 0 0x1000).table = 0x3000 ∧
      (I386.findMadt (mem32 35 0) 0x1000).inspected = [0] ∧
      (I386.findMadt (mem32 35 0) 0x1000).table = 0x3000) ∧
    quad (bytesAt (mem32 44 1) 0x2000) 36 = 0x100003000 ∧
      (I386.findMadt (mem32 44 1) 0x1000).table = 0x3000 := by
  decide

/-! ## What is mapped on x86_64 -/

/-- The range that `find_madt` maps for a table: `map_physical_range(table_phys, 4096, …)`
    (rsdp.c:184 and 267). -/
def findMadtRange (tablePhys : Addr) : Addr × BitVec 32 := (tablePhys, 4096)

/-- The range that `parse_madt` maps: `map_physical_range((uint32_t)madt_addr, 0x4000, …)` (madt.c:24). -/
def parseMadtRange (madtAddr : Addr) : Addr × BitVec 32 := ((madtAddr.setWidth 32).setWidth 64, 0x4000)

/-- The page `q` of physical memory has a byte of the range. -/
def InRange (range : Addr × BitVec 32) (q : ℕ) : Prop :=
  ∃ y, range.1.toNat ≤ y ∧ y < range.1.toNat + range.2.toNat ∧ y / 4096 = q

/-- The number of pages that `n` bytes from `a` on touch. -/
def pages (a n : ℕ) : ℕ := (a % 4096 + n + 4095) / 4096

/-- `map_physical_range` takes the pages of its range. -/
theorem inRange_iff_touches (range : Addr × BitVec 32) (x : Addr) :
    InRange range (x.toNat / 4096) ↔ Paging.Touches range.1 range.2 x := Iff.rfl

theorem inRange_iff (a : Addr) {n : BitVec 32} (hn : n ≠ 0) (q : ℕ) :
    InRange (a, n) q ↔ a.toNat / 4096 ≤ q ∧ q < a.toNat / 4096 + pages a.toNat n.toNat := by
  have hpos : 0 < n.toNat := Nat.pos_of_ne_zero fun h => hn (BitVec.eq_of_toNat_eq h)
  unfold InRange pages
  dsimp only
  generalize a.toNat = a
  generalize n.toNat = n at hpos
  constructor
  · intro ⟨y, hlow, hhigh, hpage⟩
    omega
  · intro ⟨hlow, hhigh⟩
    exact ⟨max a (q * 4096), by omega, by omega, by omega⟩

/-- The pages of `n` bytes from `p` on are all in `S`, which has those of 4096 bytes from `p` on, if and
    only if the others are. -/
theorem pages_subset_iff {S : ℕ → Prop} (p n : ℕ)
    (hown : ∀ q, p / 4096 ≤ q → q < p / 4096 + pages p 4096 → S q) :
    (∀ i < n, S ((p + i) / 4096)) ↔
      ∀ q, p / 4096 + pages p 4096 ≤ q → q < p / 4096 + pages p n → S q := by
  constructor
  · intro h q hfirst hlast
    have hpage : (p + (q * 4096 - p)) / 4096 = q ∧ q * 4096 - p < n := by
      unfold pages at hfirst hlast
      omega
    exact hpage.1 ▸ h _ hpage.2
  · intro h i hi
    by_cases hlt : (p + i) / 4096 < p / 4096 + pages p 4096
    · exact hown _ (Nat.div_le_div_right (by omega)) hlt
    · refine h _ (by omega) ?_
      unfold pages
      omega

/-- A table that `find_madt` returns on x86_64 is shown by the direct map, and was mapped last. -/
theorem X86.findMadt_found {mem : Mem} {hhdmOffset rsdpAddr : Addr}
    (hfound : (X86.findMadt mem hhdmOffset rsdpAddr).table ≠ 0) :
    ∃ phys, (X86.findMadt mem hhdmOffset rsdpAddr).table = phys + hhdmOffset ∧
      (X86.findMadt mem hhdmOffset rsdpAddr).mapped.getLast? = some phys := by
  -- both branches are a search whose tables are at their physical addresses plus the offset
  have hsearch : ∀ (entry : ℕ → Option (Addr × Addr)) (count : ℕ) (root : Addr),
      (∀ k phys table, entry k = some (phys, table) → table = phys + hhdmOffset) →
      ((searchEntries mem entry count 0).behind root).table ≠ 0 →
      ∃ phys, ((searchEntries mem entry count 0).behind root).table = phys + hhdmOffset ∧
        ((searchEntries mem entry count 0).behind root).mapped.getLast? = some phys := by
    intro entry count root hentry htable
    obtain ⟨k, phys, hk, hlast⟩ := searchEntries_found htable
    refine ⟨phys, hentry k phys _ hk, ?_⟩
    rw [Search.behind, List.getLast?_cons, hlast]
    rfl
  unfold X86.findMadt at hfound ⊢
  by_cases hrsdp : rsdpAddr = 0
  · rw [if_pos hrsdp] at hfound
    exact absurd rfl hfound
  rw [if_neg hrsdp] at hfound ⊢
  by_cases hrev : 2 ≤ (bytesAt mem rsdpAddr 15).toNat
  · rw [if_pos hrev] at hfound ⊢
    refine hsearch _ _ _ (fun k phys table h => ?_) hfound
    obtain ⟨rfl, rfl⟩ := Prod.mk.inj (Option.some.inj h)
    rfl
  · rw [if_neg hrev] at hfound ⊢
    refine hsearch _ _ _ (fun k phys table h => ?_) hfound
    obtain ⟨rfl, rfl⟩ := Prod.mk.inj (Option.some.inj h)
    rfl

/-- The ranges that are passed to `map_physical_range` up to the loop of `parse_madt`. -/
def requested (r : Search 64) : List (Addr × BitVec 32) :=
  r.mapped.map findMadtRange ++ [parseMadtRange r.table]

/-- A MADT that `find_madt` returns on x86_64 is the direct-map address of an entry. All its pages are
    passed to `map_physical_range` if and only if each page behind those of its own 4096 bytes is in
    the range of `parse_madt` (the low 32 bits of the virtual address, taken as a physical one) or in
    the 4096 bytes of the root table or of a table before it. So it is if its own 4096 bytes are all
    of the table, or the range of `parse_madt` joins them and reaches its end. -/
theorem madt_mapped_iff (mem : Mem) (hhdmOffset rsdpAddr : Addr)
    (hfound : (X86.findMadt mem hhdmOffset rsdpAddr).table ≠ 0) :
    let r := X86.findMadt mem hhdmOffset rsdpAddr
    ∃ phys : Addr, r.table = phys + hhdmOffset ∧ r.mapped.getLast? = some phys ∧
      let p := phys.toNat
      let t := r.table.toNat % 2 ^ 32
      let length := tableLength (bytesAt mem r.table)
      ((∀ i < length, ∃ range ∈ requested r, InRange range ((p + i) / 4096)) ↔
        ∀ q, p / 4096 + pages p 4096 ≤ q → q < p / 4096 + pages p length →
          (t / 4096 ≤ q ∧ q < t / 4096 + pages t 0x4000) ∨
          ∃ a ∈ r.mapped, a.toNat / 4096 ≤ q ∧ q < a.toNat / 4096 + pages a.toNat 4096) ∧
      (pages p length ≤ pages p 4096 ∨
        t / 4096 ≤ p / 4096 + pages p 4096 ∧
        p / 4096 + pages p length ≤ t / 4096 + pages t 0x4000 →
        ∀ i < length, ∃ range ∈ requested r, InRange range ((p + i) / 4096)) := by
  intro r
  obtain ⟨phys, htable, hlast⟩ := X86.findMadt_found hfound
  refine ⟨phys, htable, hlast, ?_⟩
  intro p t length
  have ht : ((r.table.setWidth 32).setWidth 64 : Addr).toNat = t := by
    rw [BitVec.toNat_setWidth, BitVec.toNat_setWidth]
    exact Nat.mod_eq_of_lt ((Nat.mod_lt _ (by norm_num)).trans (by norm_num))
  have hparse : ∀ q, InRange (parseMadtRange r.table) q ↔
      t / 4096 ≤ q ∧ q < t / 4096 + pages t 0x4000 := by
    intro q
    rw [parseMadtRange, inRange_iff _ (by decide), ht]
    rfl
  have hfind : ∀ (a : Addr) q, InRange (findMadtRange a) q ↔
      a.toNat / 4096 ≤ q ∧ q < a.toNat / 4096 + pages a.toNat 4096 :=
    fun a q => inRange_iff a (by decide) q
  have hmem : ∀ q, (∃ range ∈ requested r, InRange range q) ↔
      (t / 4096 ≤ q ∧ q < t / 4096 + pages t 0x4000) ∨
      ∃ a ∈ r.mapped, a.toNat / 4096 ≤ q ∧ q < a.toNat / 4096 + pages a.toNat 4096 := by
    intro q
    simp only [requested, List.mem_append, List.mem_singleton, or_and_right, exists_or,
      exists_eq_left, List.mem_map, exists_exists_and_eq_and, hfind, hparse]
    exact or_comm
  have hpages := pages_subset_iff p length fun q hlow hhigh =>
    (hmem q).mpr (.inr ⟨phys, List.mem_of_getLast? hlast, hlow, hhigh⟩)
  simp only [hmem] at hpages ⊢
  refine ⟨hpages, fun hsimple => hpages.mpr fun q hlow hhigh => .inl ?_⟩
  omega

/-- A MADT of 0x1800 bytes at 0x7FE1000 behind an FADT at 0x7FE2800. The second page of the MADT is not
    in the range of `parse_madt`, but it is the first one of the FADT. -/
theorem madt_mapped_iff_shared_page :
    let low (a : ℕ) : Byte :=
      ([(0x100F, 2), (0x1019, 0x20), (0x2004, 52), (0x2025, 0x28), (0x2026, 0xFE), (0x2027, 0x07),
        (0x202D, 0x10), (0x202E, 0xFE), (0x202F, 0x07), (0x7FE1000, 0x41), (0x7FE1001, 0x50),
        (0x7FE1002, 0x49), (0x7FE1003, 0x43), (0x7FE1005, 0x18)].lookup a).getD 0
    let mem : Mem := fun a => low (a - 0xFFFF800040000000).toNat
    let r := X86.findMadt mem 0xFFFF800040000000 0xFFFF800040001000
    r.table = 0xFFFF800047FE1000 ∧ tableLength (bytesAt mem r.table) = 0x1800 ∧
      r.mapped = [0x2000, 0x7FE2800, 0x7FE1000] ∧
      ∀ i < 0x1800, ∃ range ∈ requested r, InRange range ((0x7FE1000 + i) / 4096) := by
  intro low mem r
  have htable : r.table = 0xFFFF800047FE1000 := by decide
  have hlength : tableLength (bytesAt mem r.table) = 0x1800 := by decide
  have hmapped : r.mapped = [0x2000, 0x7FE2800, 0x7FE1000] := by decide
  refine ⟨htable, hlength, hmapped, ?_⟩
  obtain ⟨phys, hphys, -, hiff, -⟩ := madt_mapped_iff mem 0xFFFF800040000000 0xFFFF800040001000
    (by decide)
  obtain rfl : phys = 0x7FE1000 := by
    have hsub := congrArg (· - 0xFFFF800040000000) (htable.symm.trans hphys)
    simpa using hsub.symm
  have hall := hiff.mpr fun q hlow hhigh => ?_
  · rwa [hlength] at hall
  · rw [hlength] at hhigh
    obtain rfl : q = 0x7FE2 := by
      have hbounds : pages 0x7FE1000 4096 = 1 ∧ pages 0x7FE1000 0x1800 = 2 := by decide
      have hp : BitVec.toNat (0x7FE1000 : Addr) = 0x7FE1000 := rfl
      rw [hp] at hlow hhigh
      omega
    refine .inr ⟨0x7FE2800, ?_, by decide⟩
    show (0x7FE2800 : Addr) ∈ r.mapped
    rw [hmapped]
    decide

/-- A MADT of 0x2000 bytes there, as the only table: its second page is in none of the ranges. -/
theorem madt_not_mapped :
    let low (a : ℕ) : Byte :=
      ([(0x100F, 2), (0x1019, 0x20), (0x2004, 44), (0x2025, 0x10), (0x2026, 0xFE), (0x2027, 0x07),
        (0x7FE1000, 0x41), (0x7FE1001, 0x50), (0x7FE1002, 0x49), (0x7FE1003, 0x43),
        (0x7FE1005, 0x20)].lookup a).getD 0
    let mem : Mem := fun a => low (a - 0xFFFF800040000000).toNat
    let r := X86.findMadt mem 0xFFFF800040000000 0xFFFF800040001000
    r.table = 0xFFFF800047FE1000 ∧ tableLength (bytesAt mem r.table) = 0x2000 ∧
      r.mapped = [0x2000, 0x7FE1000] ∧
      ∀ range ∈ requested r, ¬ InRange range 0x7FE2 := by
  intro low mem r
  have htable : r.table = 0xFFFF800047FE1000 := by decide
  have hmapped : r.mapped = [0x2000, 0x7FE1000] := by decide
  refine ⟨htable, by decide, hmapped, ?_⟩
  rw [requested, htable, hmapped]
  intro range hrange
  obtain rfl | rfl | rfl : range = findMadtRange 0x2000 ∨ range = findMadtRange 0x7FE1000 ∨
      range = parseMadtRange 0xFFFF800047FE1000 := by simpa using hrange
  · exact mt (inRange_iff 0x2000 (by decide) _).mp (by decide)
  · exact mt (inRange_iff 0x7FE1000 (by decide) _).mp (by decide)
  · exact mt (inRange_iff 0x47FE1000 (by decide) _).mp (by decide)

end HorizonOS.Acpi
