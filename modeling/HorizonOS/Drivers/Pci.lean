import HorizonOS.Lib.Basic

/-!
# Finding a PCI device

`pci_find_device` (drivers/pci.c:9–39) scans all buses and devices for a vendor and a device number,
and 32 functions of each device, though a device has only eight. `pci_read` (41–47) ORs the three
numbers into a configuration address, so that the upper two bits of a function number fall on the
lower two bits of the device number: the function that answers at `(bus, dev, function)` is
`(bus, dev ||| function >> 3, function & 7)`.

* `pciRead_eq`: which function answers.
* `pciFindDevice_eq`: the scan meets the least function that has the numbers, under the address
  `(b, 4 * (d / 4), 8 * (d % 4) + f)`.
* `pciFindDevice_canonical_iff`: so the address is the function's own exactly if its device number
  is a multiple of four.
-/

namespace HorizonOS.Drivers.Pci

open HorizonOS.Lib

/-! ## Model -/

/-- `struct pci_address_t` (pci.h:6–11). -/
structure PciAddress where
  bus : BitVec 8
  device : BitVec 8
  function : BitVec 8
  valid : ℤ
deriving DecidableEq

/-- The registers of all functions, as 32-bit words. An absent function reads `0xFFFFFFFF`. -/
abbrev Space := BitVec 8 → BitVec 5 → BitVec 3 → BitVec 6 → BitVec 32

/-- What is read at port `0xCFC` after `configAddr` has been written to port `0xCF8`. -/
def answer (space : Space) (configAddr : BitVec 32) : BitVec 32 :=
  if configAddr.getLsbD 31 then
    space (configAddr.extractLsb' 16 8) (configAddr.extractLsb' 11 5) (configAddr.extractLsb' 8 3)
      (configAddr.extractLsb' 2 6)
  else 0xFFFFFFFF

/-- `config_addr` (pci.c:42–44 and 50–52). -/
def configAddr (addr : PciAddress) (regOffset : BitVec 8) : BitVec 32 :=
  (1 : BitVec 32) <<< 31 ||| addr.bus.setWidth 32 <<< 16 ||| addr.device.setWidth 32 <<< 11 |||
    addr.function.setWidth 32 <<< 8 ||| (regOffset &&& 0xFC).setWidth 32

/-- `pci_read(addr, reg_offset)` (pci.c:41–47). -/
def pciRead (space : Space) (addr : PciAddress) (regOffset : BitVec 8) : BitVec 32 :=
  answer space (configAddr addr regOffset)

/-- The body of the scan (pci.c:15–34); `none` if it goes on. -/
def probe (space : Space) (vendor device : ℤ) (bus dev function : ℕ) : Option PciAddress :=
  let addr : PciAddress := ⟨BitVec.ofNat 8 bus, BitVec.ofNat 8 dev, BitVec.ofNat 8 function, 0⟩
  let ids := pciRead space addr 0x00
  if ids = 0xFFFFFFFF then none
  else
    let vendorId : BitVec 16 := (ids &&& 0xFFFF).setWidth 16
    let deviceId : BitVec 16 := (ids >>> 16).setWidth 16
    if (vendorId.toNat : ℤ) = vendor ∧ (deviceId.toNat : ℤ) = device then some { addr with valid := 1 }
    else none

/-- `pci_find_device(vendor, device)` (pci.c:9–39). -/
def pciFindDevice (space : Space) (vendor device : ℤ) : PciAddress :=
  ((List.range 256).findSome? fun bus => (List.range 32).findSome? fun dev =>
    (List.range 32).findSome? fun function => probe space vendor device bus dev function).getD
    ⟨-1, -1, -1, 0⟩

/-! ## Which function answers -/

/-- The numbers of a function. -/
def Carries (space : Space) (vendor device : ℤ) (b : BitVec 8) (d : BitVec 5) (f : BitVec 3) :
    Prop :=
  (((space b d f 0).setWidth 16).toNat : ℤ) = vendor ∧
    (((space b d f 0 >>> 16).setWidth 16).toNat : ℤ) = device

instance (space : Space) (vendor device : ℤ) (b : BitVec 8) (d : BitVec 5) (f : BitVec 3) :
    Decidable (Carries space vendor device b d f) := inferInstanceAs (Decidable (_ ∧ _))

section Answer

variable {addr : PciAddress} (hdev : addr.device.toNat < 32)

include hdev in
theorem configAddr_bus : (configAddr addr 0).extractLsb' 16 8 = addr.bus := by
  have hhigh : ∀ i, 5 ≤ i → addr.device.getLsbD i = false := fun i hi =>
    Nat.testBit_lt_two_pow (lt_of_lt_of_le hdev (Nat.pow_le_pow_right two_pos hi))
  have h5 := hhigh 5 (by decide)
  have h6 := hhigh 6 (by decide)
  have h7 := hhigh 7 (by decide)
  simp only [BitVec.getLsbD_eq_getElem (by decide : (5 : ℕ) < 8),
    BitVec.getLsbD_eq_getElem (by decide : (6 : ℕ) < 8),
    BitVec.getLsbD_eq_getElem (by decide : (7 : ℕ) < 8)] at h5 h6 h7
  apply BitVec.eq_of_getLsbD_eq
  intro i hi
  interval_cases i <;> simp [configAddr, h5, h6, h7]

omit hdev in
/-- The upper bits of the function number fall on the device number. -/
theorem configAddr_device :
    (configAddr addr 0).extractLsb' 11 5 =
      addr.device.setWidth 5 ||| (addr.function >>> 3).setWidth 5 := by
  apply BitVec.eq_of_getLsbD_eq
  intro i hi
  interval_cases i <;> simp [configAddr]

omit hdev in
theorem configAddr_function :
    (configAddr addr 0).extractLsb' 8 3 = addr.function.setWidth 3 := by
  apply BitVec.eq_of_getLsbD_eq
  intro i hi
  interval_cases i <;> simp [configAddr]

omit hdev in
theorem configAddr_register : (configAddr addr 0).extractLsb' 2 6 = 0 := by
  apply BitVec.eq_of_getLsbD_eq
  intro i hi
  interval_cases i <;> simp [configAddr]

omit hdev in
theorem configAddr_enable : (configAddr addr 0).getLsbD 31 = true := by
  simp [configAddr]

include hdev in
theorem pciRead_eq (space : Space) :
    pciRead space addr 0 =
      space addr.bus (addr.device.setWidth 5 ||| (addr.function >>> 3).setWidth 5)
        (addr.function.setWidth 3) 0 := by
  rw [pciRead, answer, if_pos configAddr_enable, configAddr_bus hdev, configAddr_device,
    configAddr_function, configAddr_register]

end Answer

/-- The same in numbers. -/
theorem alias_eq : ∀ dev < 32, ∀ function < 32,
    (BitVec.ofNat 8 dev).setWidth 5 ||| (BitVec.ofNat 8 function >>> 3).setWidth 5 =
      BitVec.ofNat 5 (dev ||| function / 8) ∧
    (BitVec.ofNat 8 function).setWidth 3 = BitVec.ofNat 3 (function % 8) := by
  decide +kernel

section Probe

variable {space : Space} {vendor device : ℤ} (hids : ¬(vendor = 0xFFFF ∧ device = 0xFFFF))

include hids in
theorem probe_eq {bus dev function : ℕ} (hdev : dev < 32) (hfunction : function < 32) :
    probe space vendor device bus dev function =
      if Carries space vendor device (BitVec.ofNat 8 bus) (BitVec.ofNat 5 (dev ||| function / 8))
        (BitVec.ofNat 3 (function % 8))
      then some ⟨BitVec.ofNat 8 bus, BitVec.ofNat 8 dev, BitVec.ofNat 8 function, 1⟩ else none := by
  obtain ⟨hdevice, hfn⟩ := alias_eq dev hdev function hfunction
  have hread : pciRead space ⟨BitVec.ofNat 8 bus, BitVec.ofNat 8 dev, BitVec.ofNat 8 function, 0⟩ 0 =
      space (BitVec.ofNat 8 bus) (BitVec.ofNat 5 (dev ||| function / 8))
        (BitVec.ofNat 3 (function % 8)) 0 := by
    rw [pciRead_eq (by simp only [BitVec.toNat_ofNat]; omega)]
    simp only [hdevice, hfn]
  have hlow : ∀ ids : BitVec 32, (ids &&& 0xFFFF).setWidth 16 = ids.setWidth 16 := by
    intro ids
    apply BitVec.eq_of_getLsbD_eq
    intro i hi
    interval_cases i <;> simp
  unfold probe
  simp only [hread, hlow]
  by_cases habsent : space (BitVec.ofNat 8 bus) (BitVec.ofNat 5 (dev ||| function / 8))
      (BitVec.ofNat 3 (function % 8)) 0 = 0xFFFFFFFF
  · -- an absent function has the numbers that are not asked for
    rw [if_pos habsent, if_neg]
    rintro ⟨hvendor, hdevice⟩
    rw [habsent] at hvendor hdevice
    exact hids ⟨hvendor.symm, hdevice.symm⟩
  · rw [if_neg habsent]
    rfl

end Probe

/-! ## The scan -/

/-- The functions that have the numbers, in lexicographical order. -/
def carriers (space : Space) (vendor device : ℤ) : Set (ℕ ×ₗ ℕ ×ₗ ℕ) :=
  {t | ∃ b d f, Carries space vendor device b d f ∧
    t = toLex (b.toNat, toLex (d.toNat, f.toNat))}

variable {space : Space} {vendor device : ℤ}

theorem isLeast_carriers_iff {b : BitVec 8} {d : BitVec 5} {f : BitVec 3} :
    IsLeast (carriers space vendor device) (toLex (b.toNat, toLex (d.toNat, f.toNat))) ↔
      Carries space vendor device b d f ∧
      ∀ b' d' f', Carries space vendor device b' d' f' → b.toNat < b'.toNat ∨
        b.toNat = b'.toNat ∧ (d.toNat < d'.toNat ∨ d.toNat = d'.toNat ∧ f.toNat ≤ f'.toNat) := by
  constructor
  · rintro ⟨⟨b₀, d₀, f₀, hcarries, heq⟩, hleast⟩
    simp only [toLex_inj, Prod.mk.injEq, BitVec.toNat_inj] at heq
    obtain ⟨rfl, rfl, rfl⟩ := heq
    refine ⟨hcarries, fun b' d' f' h' => ?_⟩
    simpa [Prod.Lex.toLex_le_toLex] using hleast ⟨b', d', f', h', rfl⟩
  · rintro ⟨hcarries, hall⟩
    refine ⟨⟨b, d, f, hcarries, rfl⟩, ?_⟩
    rintro _ ⟨b', d', f', h', rfl⟩
    simpa [Prod.Lex.toLex_le_toLex] using hall b' d' f' h'

/-- Where the scan looks for a function, in numbers. -/
theorem or_div_four : ∀ dev < 32, ∀ r < 4, (dev ||| r) / 4 = dev / 4 ∧ dev ||| r < 32 ∧
    (dev % 4 = 0 → dev ||| r = dev + r) := by
  decide +kernel

/-- Nothing is found at an address whose function is less than the least one. -/
theorem probe_eq_none (hids : ¬(vendor = 0xFFFF ∧ device = 0xFFFF)) {b : BitVec 8} {d : BitVec 5}
    {f : BitVec 3}
    (hleast : IsLeast (carriers space vendor device) (toLex (b.toNat, toLex (d.toNat, f.toNat))))
    {bus dev function : ℕ} (hbus : bus < 256) (hdev : dev < 32) (hfunction : function < 32)
    (hless : bus < b.toNat ∨ bus = b.toNat ∧ ((dev ||| function / 8) < d.toNat ∨
      (dev ||| function / 8) = d.toNat ∧ function % 8 < f.toNat)) :
    probe space vendor device bus dev function = none := by
  obtain ⟨-, halias, -⟩ := or_div_four dev hdev (function / 8) (by omega)
  rw [probe_eq hids hdev hfunction, if_neg]
  intro hcarries
  have hle := (isLeast_carriers_iff.mp hleast).2 _ _ _ hcarries
  simp only [BitVec.toNat_ofNat] at hle
  omega

theorem pciFindDevice_eq (hids : ¬(vendor = 0xFFFF ∧ device = 0xFFFF)) {b : BitVec 8} {d : BitVec 5}
    {f : BitVec 3}
    (hleast : IsLeast (carriers space vendor device) (toLex (b.toNat, toLex (d.toNat, f.toNat)))) :
    pciFindDevice space vendor device =
      ⟨b, BitVec.ofNat 8 (4 * (d.toNat / 4)), BitVec.ofNat 8 (8 * (d.toNat % 4) + f.toNat), 1⟩ := by
  have hb := b.isLt
  have hd := d.isLt
  have hf := f.isLt
  obtain ⟨-, -, hsum⟩ := or_div_four (4 * (d.toNat / 4)) (by omega) (d.toNat % 4) (by omega)
  have hfound : probe space vendor device b.toNat (4 * (d.toNat / 4)) (8 * (d.toNat % 4) + f.toNat) =
      some ⟨b, BitVec.ofNat 8 (4 * (d.toNat / 4)), BitVec.ofNat 8 (8 * (d.toNat % 4) + f.toNat), 1⟩ := by
    have hdiv : (8 * (d.toNat % 4) + f.toNat) / 8 = d.toNat % 4 := by omega
    have hmod : (8 * (d.toNat % 4) + f.toNat) % 8 = f.toNat := by omega
    have hdevice : 4 * (d.toNat / 4) ||| d.toNat % 4 = d.toNat := by
      rw [hsum (by omega)]
      omega
    rw [probe_eq hids (by omega) (by omega), hdiv, hmod, hdevice]
    simp only [BitVec.ofNat_toNat, BitVec.setWidth_eq]
    exact if_pos (isLeast_carriers_iff.mp hleast).1
  -- earlier functions at the same device number: an earlier device of its group of four, or an
  -- earlier function of the same one
  have hfunctions := findSome?_range_eq_some (n := 32) (by omega) hfound fun function hlt => by
    obtain ⟨-, -, hsum⟩ := or_div_four (4 * (d.toNat / 4)) (by omega) (function / 8) (by omega)
    refine probe_eq_none hids hleast hb (by omega) (by omega) (.inr ⟨rfl, ?_⟩)
    rw [hsum (by omega)]
    omega
  -- earlier device numbers: earlier groups of four
  have hdevices := findSome?_range_eq_some (n := 32) (g := fun dev => (List.range 32).findSome? fun fn =>
      probe space vendor device b.toNat dev fn) (by omega) hfunctions fun dev hlt => by
    refine List.findSome?_eq_none_iff.mpr fun function hmem => ?_
    have hfunction := List.mem_range.mp hmem
    obtain ⟨hgroup, -, -⟩ := or_div_four dev (by omega) (function / 8) (by omega)
    exact probe_eq_none hids hleast hb (by omega) hfunction (.inr ⟨rfl, .inl (by omega)⟩)
  have hbuses := findSome?_range_eq_some (n := 256) (g := fun bus => (List.range 32).findSome? fun dev =>
      (List.range 32).findSome? fun fn => probe space vendor device bus dev fn) hb hdevices
    fun bus hlt => by
      refine List.findSome?_eq_none_iff.mpr fun dev hdev => ?_
      refine List.findSome?_eq_none_iff.mpr fun function hmem => ?_
      exact probe_eq_none hids hleast (by omega) (List.mem_range.mp hdev) (List.mem_range.mp hmem)
        (.inl hlt)
  rw [pciFindDevice, hbuses, Option.getD_some]

theorem pciFindDevice_of_empty (hids : ¬(vendor = 0xFFFF ∧ device = 0xFFFF))
    (hempty : carriers space vendor device = ∅) :
    pciFindDevice space vendor device = ⟨-1, -1, -1, 0⟩ := by
  have hnone : ∀ b d f, ¬Carries space vendor device b d f := fun b d f h =>
    Set.eq_empty_iff_forall_notMem.mp hempty _ ⟨b, d, f, h, rfl⟩
  rw [pciFindDevice, List.findSome?_eq_none_iff.mpr, Option.getD_none]
  intro bus hbus
  refine List.findSome?_eq_none_iff.mpr fun dev hdev => ?_
  refine List.findSome?_eq_none_iff.mpr fun function hmem => ?_
  rw [probe_eq hids (List.mem_range.mp hdev) (List.mem_range.mp hmem), if_neg (hnone _ _ _)]

/-! ## The address that is returned -/

/-- The address is valid exactly if a function has the numbers, and then it is that of the first
    one. -/
def Canonical (space : Space) (vendor device : ℤ) (res : PciAddress) : Prop :=
  (res.valid = 1 ↔ (carriers space vendor device).Nonempty) ∧
  (res.valid = 1 → IsLeast (carriers space vendor device)
    (toLex (res.bus.toNat, toLex (res.device.toNat, res.function.toNat))))

theorem exists_isLeast_carriers (h : (carriers space vendor device).Nonempty) :
    ∃ (b : BitVec 8) (d : BitVec 5) (f : BitVec 3),
      IsLeast (carriers space vendor device) (toLex (b.toNat, toLex (d.toNat, f.toNat))) := by
  obtain ⟨t, ht, hmin⟩ := WellFounded.has_min (α := ℕ ×ₗ ℕ ×ₗ ℕ) wellFounded_lt _ h
  obtain ⟨b, d, f, hcarries, rfl⟩ := id ht
  exact ⟨b, d, f, ht, fun t' ht' => not_lt.mp (hmin t' ht')⟩

/-- **When the scan reports a function under its own address.** -/
theorem pciFindDevice_canonical_iff (space : Space) (vendor device : ℤ)
    (hids : ¬(vendor = 0xFFFF ∧ device = 0xFFFF)) :
    Canonical space vendor device (pciFindDevice space vendor device) ↔
      ∀ b d f, IsLeast (carriers space vendor device) (toLex (b, toLex (d, f))) → d % 4 = 0 := by
  rcases Set.eq_empty_or_nonempty (carriers space vendor device) with hempty | hsome
  · have hnot : ¬(carriers space vendor device).Nonempty := Set.not_nonempty_iff_eq_empty.mpr hempty
    rw [pciFindDevice_of_empty hids hempty]
    refine iff_of_true ⟨iff_of_false (by decide) hnot, fun h => absurd h (by decide)⟩ ?_
    exact fun b d f hleast => absurd ⟨_, hleast.1⟩ hnot
  · obtain ⟨b, d, f, hleast⟩ := exists_isLeast_carriers hsome
    have hd := d.isLt
    have hf := f.isLt
    rw [pciFindDevice_eq hids hleast]
    constructor
    · -- the least function is unique, so the address returned is its own
      rintro ⟨-, hres⟩ b' d' f' hleast'
      have hsame := (hres rfl).unique hleast
      have hsame' := hleast.unique hleast'
      simp only [toLex_inj, Prod.mk.injEq, BitVec.toNat_ofNat] at hsame hsame'
      omega
    · intro hall
      have hmod := hall _ _ _ hleast
      refine ⟨iff_of_true rfl hsome, fun _ => ?_⟩
      have hdevice : (BitVec.ofNat 8 (4 * (d.toNat / 4))).toNat = d.toNat := by
        rw [BitVec.toNat_ofNat]
        omega
      have hfunction : (BitVec.ofNat 8 (8 * (d.toNat % 4) + f.toNat)).toNat = f.toNat := by
        rw [BitVec.toNat_ofNat]
        omega
      rw [hdevice, hfunction]
      exact hleast

/-- A bus with one function, the AC97 device of the driver. -/
def single (b : BitVec 8) (d : BitVec 5) (f : BitVec 3) : Space :=
  fun b' d' f' _ => if b' = b ∧ d' = d ∧ f' = f then 0x24158086 else 0xFFFFFFFF

theorem carriers_single (b : BitVec 8) (d : BitVec 5) (f : BitVec 3) :
    carriers (single b d f) 0x8086 0x2415 = {toLex (b.toNat, toLex (d.toNat, f.toNat))} := by
  ext t
  rw [Set.mem_singleton_iff]
  constructor
  · rintro ⟨b', d', f', hcarries, rfl⟩
    unfold Carries single at hcarries
    split_ifs at hcarries with heq
    · obtain ⟨rfl, rfl, rfl⟩ := heq
      rfl
    · exact absurd hcarries.1 (by decide)
  · rintro rfl
    refine ⟨b, d, f, ?_, rfl⟩
    unfold Carries single
    rw [if_pos ⟨rfl, rfl, rfl⟩]
    decide

/-- At device 4, the function is reported under its own address. -/
theorem pciFindDevice_canonical_iff_four :
    Canonical (single 0 4 0) 0x8086 0x2415 (pciFindDevice (single 0 4 0) 0x8086 0x2415) := by
  refine (pciFindDevice_canonical_iff _ _ _ (by decide)).mpr fun b d f hleast => ?_
  have hmem := hleast.1
  rw [carriers_single, Set.mem_singleton_iff] at hmem
  simp only [toLex_inj, Prod.mk.injEq] at hmem
  rw [hmem.2.1]
  decide

/-- At device 1, it is reported as function 8 of device 0. -/
theorem pciFindDevice_device_one :
    pciFindDevice (single 0 1 0) 0x8086 0x2415 = ⟨0, 0, 8, 1⟩ ∧
      ¬Canonical (single 0 1 0) 0x8086 0x2415 (pciFindDevice (single 0 1 0) 0x8086 0x2415) := by
  have hleast : IsLeast (carriers (single 0 1 0) 0x8086 0x2415)
      (toLex ((0 : BitVec 8).toNat, toLex ((1 : BitVec 5).toNat, (0 : BitVec 3).toNat))) := by
    rw [carriers_single]
    exact isLeast_singleton
  have hfind : pciFindDevice (single 0 1 0) 0x8086 0x2415 = ⟨0, 0, 8, 1⟩ :=
    pciFindDevice_eq (by decide) hleast
  refine ⟨hfind, fun hcanonical => ?_⟩
  rw [hfind] at hcanonical
  exact absurd ((hcanonical.2 rfl).unique hleast) (by decide)

end HorizonOS.Drivers.Pci
