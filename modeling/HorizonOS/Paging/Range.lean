import HorizonOS.Paging.Map

/-!
# `map_physical_range` on x86_64

`map_physical_range` (arch/x86_64/memory/paging.c:209–234) shows a range of physical memory
in the higher-half direct map. It takes each page of the range, rounded outwards to page
boundaries, looks whether it is mapped and maps it if it is not.

* `RangeMapped`: what has become of the tables when the pages of a range are mapped.
* `mapRangePage_spec`: one round of the loop, `mapRangeLoop_spec`: the loop.
* `mapPhysicalRange_covers`: the range and nothing else is mapped, and a second call changes
  nothing. An empty range that does not start at a page boundary still maps a page.
-/

namespace HorizonOS.Paging

open HorizonOS.Lib HorizonOS.Lib.Radix HorizonOS.Mm

/-! ## Model -/

/-- The body of the loop of `map_physical_range` (paging.c:222–233) for the page at
    `physIt`. -/
def mapRangePage (L : Layout) (s : MmState) (physIt : Addr) (iskernel writeable : Bool)
    (cr3 : Word) : MmState :=
  let virt := physToVirt L physIt
  match getPageEntry L s virt false cr3 with
  | (none, s) => mapPage L s virt physIt iskernel writeable cr3
  | (some pte, s) =>
    if s.mem.load pte &&& pagePresent ≠ 0 then s
    else mapPage L s virt physIt iskernel writeable cr3

/-- `for (phys_it = start; phys_it < end; phys_it += 0x1000)`; `none` when `fuel` does not
    suffice. -/
def mapRangeLoop (L : Layout) (stop : Addr) (iskernel writeable : Bool) (cr3 : Word) :
    ℕ → Addr → MmState → Option MmState
  | 0, _, _ => none
  | fuel + 1, physIt, s =>
    if physIt < stop then
      mapRangeLoop L stop iskernel writeable cr3 fuel (physIt + 0x1000#64)
        (mapRangePage L s physIt iskernel writeable cr3)
    else some s

/-- `map_physical_range(phys_addr, size, iskernel, writeable, cr3)` (paging.c:209–234). -/
def mapPhysicalRange (L : Layout) (s : MmState) (physAddr : Addr) (size : BitVec 32)
    (iskernel writeable : Bool) (cr3 : Word) : Option MmState :=
  let start := physAddr &&& ~~~0xFFF#64
  let stop := (physAddr + size.setWidth 64 + 0xFFF#64) &&& ~~~0xFFF#64
  mapRangeLoop L stop iskernel writeable cr3 (2 ^ 20 + 2) start s

/-! ## Specification -/

/-- Every page of the direct map below `2^46` that is there shows its own address. -/
def Linear (L : Layout) (m : Mem) (cr3 : Word) : Prop :=
  ∀ x : Addr, x.toNat < 2 ^ 46 → ∀ t, translate L m cr3 (physToVirt L x) = some t → t.phys = x

/-- The page of `x` has a byte of `[physAddr, physAddr + size)`. -/
def Touches (physAddr : Addr) (size : BitVec 32) (x : Addr) : Prop :=
  ∃ y, physAddr.toNat ≤ y ∧ y < physAddr.toNat + size.toNat ∧ y / 4096 = x.toNat / 4096

/-- The pages that `map_physical_range` takes: those of the range, and for an empty range
    that starts inside a page that page. -/
def Taken (physAddr : Addr) (size : BitVec 32) (x : Addr) : Prop :=
  Touches physAddr size x ∨
    size = 0 ∧ physAddr.toNat % 4096 ≠ 0 ∧ x.toNat / 4096 = physAddr.toNat / 4096

/-! ## Pages of the direct map -/

section Window

variable {L : Layout} {cr3 : Word} {x y : Addr}

theorem toNat_pageOf (v : Addr) : (pageOf v).toNat = v.toNat / 4096 % 2 ^ 36 := by
  rw [pageOf, BitVec.extractLsb'_toNat, Nat.shiftRight_eq_div_pow]

/-- Pages below `2^46` are shown at different places. -/
theorem pageOf_physToVirt_iff (hx : x.toNat < 2 ^ 46) (hy : y.toNat < 2 ^ 46) :
    pageOf (physToVirt L x) = pageOf (physToVirt L y) ↔ x.toNat / 4096 = y.toNat / 4096 := by
  have hal := L.hhdm_aligned
  have hlt := L.hhdmOffset.isLt
  rw [← BitVec.toNat_inj, toNat_pageOf, toNat_pageOf, physToVirt, physToVirt, BitVec.toNat_add,
    BitVec.toNat_add]
  omega

/-- Addresses of one page have one path down to the level-1 table. -/
theorem upperPath_congr {v w : Addr} (h : pageOf w = pageOf v) : upperPath w = upperPath v := by
  have hpath := (path_eq_iff v w).mpr h
  rw [path_eq, path_eq] at hpath
  exact (List.append_inj hpath rfl).1

/-- The frame that the linear map has for `x`. -/
theorem phys_eq_iff (hx : x.toNat < 2 ^ 46) (f : Frame) :
    (f ++ (physToVirt L x).extractLsb' 0 12).setWidth 64 = x ↔ f = x.extractLsb' 12 40 := by
  have hal := L.hhdm_aligned
  have hf := f.isLt
  rw [← BitVec.toNat_inj, ← BitVec.toNat_inj, toNat_frame_append, BitVec.extractLsb'_toNat,
    BitVec.extractLsb'_toNat, physToVirt, BitVec.toNat_add, Nat.shiftRight_zero,
    Nat.shiftRight_eq_div_pow]
  omega

theorem Linear.frame {m : Mem} (hlin : Linear L m cr3) (hx : x.toNat < 2 ^ 46) {pg : Page}
    (hpg : lookupPage L m cr3 (physToVirt L x) = some pg) : pg.frame = x.extractLsb' 12 40 := by
  have hphys : (pg.frame ++ (physToVirt L x).extractLsb' 0 12).setWidth 64 = x :=
    hlin x hx ⟨_, _, _, _⟩ (by rw [translate, hpg]; rfl)
  exact (phys_eq_iff hx pg.frame).mp hphys

end Window

/-! ## Mapping a range -/

/-- From `s` to `s'` the pages from `lo` to `stop` have been mapped: those that were there
    stay as they are, the others get their frame, and nothing else changes. -/
structure RangeMapped (L : Layout) (cr3 : Word) (hi lo stop : ℕ) (s s' : MmState) : Prop where
  space : AddrSpace L cr3 hi s'
  tables : ∀ q r, descend (treeOf L s.mem) 4 (rootOf cr3) q = some r →
    descend (treeOf L s'.mem) 4 (rootOf cr3) q = some r
  inside : ∀ x : Addr, lo ≤ x.toNat → x.toNat < stop →
    (∃ pg, lookupPage L s'.mem cr3 (physToVirt L x) = some pg ∧
      (lookupPage L s.mem cr3 (physToVirt L x) = some pg ∨
        lookupPage L s.mem cr3 (physToVirt L x) = none ∧ pg.frame = x.extractLsb' 12 40)) ∧
    ∃ r, descend (treeOf L s'.mem) 4 (rootOf cr3) (upperPath (physToVirt L x)) = some r
  outside : ∀ v, (∀ x : Addr, lo ≤ x.toNat → x.toNat < stop → pageOf v ≠ pageOf (physToVirt L x)) →
    lookupPage L s'.mem cr3 v = lookupPage L s.mem cr3 v

section Range

variable {L : Layout} {cr3 : Word} {hi lo mid stop : ℕ} {s s' s'' : MmState}

theorem RangeMapped.refl (hs : AddrSpace L cr3 hi s) : RangeMapped L cr3 hi lo lo s s := by
  refine ⟨hs, fun _ _ h => h, ?_, fun _ _ => rfl⟩
  intro x h1 h2
  omega

/-- Two ranges side by side. -/
theorem RangeMapped.trans (h1 : RangeMapped L cr3 hi lo mid s s')
    (h2 : RangeMapped L cr3 hi mid stop s' s'') (hlo : lo ≤ mid) (hmid : mid ≤ stop)
    (hal : mid % 4096 = 0) (hstop : stop ≤ 2 ^ 46) : RangeMapped L cr3 hi lo stop s s'' := by
  have hapart : ∀ x y : Addr, x.toNat < mid → mid ≤ y.toNat → y.toNat < stop →
      pageOf (physToVirt L x) ≠ pageOf (physToVirt L y) := by
    intro x y hx hy1 hy2 heq
    rw [pageOf_physToVirt_iff (by omega) (by omega)] at heq
    omega
  refine ⟨h2.space, fun q r hq => h2.tables q r (h1.tables q r hq), ?_, ?_⟩
  · intro x hx1 hx2
    by_cases hx : x.toNat < mid
    · obtain ⟨⟨pg, hpg, hold⟩, r, hr⟩ := h1.inside x hx1 hx
      refine ⟨⟨pg, ?_, hold⟩, r, h2.tables _ r hr⟩
      rw [h2.outside _ fun y hy1 hy2 => hapart x y hx hy1 hy2, hpg]
    · obtain ⟨⟨pg, hpg, hold⟩, hr⟩ := h2.inside x (by omega) hx2
      have hsame : lookupPage L s'.mem cr3 (physToVirt L x) =
          lookupPage L s.mem cr3 (physToVirt L x) :=
        h1.outside _ fun y hy1 hy2 => (hapart y x hy2 (by omega) hx2).symm
      rw [hsame] at hold
      exact ⟨⟨pg, hpg, hold⟩, hr⟩
  · intro v hv
    rw [h2.outside v fun x hx1 hx2 => hv x (by omega) hx2,
      h1.outside v fun x hx1 hx2 => hv x hx1 (by omega)]

/-- `map_page` maps the page at `p` of the direct map where there was none. -/
theorem mapPage_rangeMapped {p : Addr} (hs : AddrSpace L cr3 hi s) (hp : p.toNat % 4096 = 0)
    (hlt : p.toNat < 2 ^ 46) (hnone : lookupPage L s.mem cr3 (physToVirt L p) = none)
    (iskernel writeable : Bool)
    (hfit : Fit hi s (mapPage L s (physToVirt L p) p iskernel writeable cr3)) :
    RangeMapped L cr3 hi p.toNat (p.toNat + 4096) s
      (mapPage L s (physToVirt L p) p iskernel writeable cr3) := by
  have hwalk : Fit hi s (getPageEntry L s (physToVirt L p &&& ~~~0xFFF#64) true cr3).2 := by
    obtain ⟨bs, hbs, hin⟩ := hfit
    exact ⟨bs, by rw [← (mapPage_heap L s _ p iskernel writeable cr3).1]; exact hbs, hin⟩
  obtain ⟨pg, hpg, hup⟩ := mapPage_spec hs (physToVirt L p) p iskernel writeable hwalk
  obtain ⟨htables, r, hr⟩ := mapPage_descend hs (physToVirt L p) p iskernel writeable hwalk
  refine ⟨hup.space, htables, ?_, ?_⟩
  · intro x hx1 hx2
    have hpage : pageOf (physToVirt L x) = pageOf (physToVirt L p) := by
      rw [pageOf_physToVirt_iff (by omega) hlt]
      omega
    have hframe : p.extractLsb' 12 40 = x.extractLsb' 12 40 := by
      apply BitVec.eq_of_toNat_eq
      rw [BitVec.extractLsb'_toNat, BitVec.extractLsb'_toNat, Nat.shiftRight_eq_div_pow,
        Nat.shiftRight_eq_div_pow]
      omega
    refine ⟨⟨pg, hup.page _ hpage, Or.inr ⟨?_, hpg.trans hframe⟩⟩, r, ?_⟩
    · rw [lookupPage_congr hpage, hnone]
    · rw [upperPath_congr hpage, hr]
  · intro v hv
    exact hup.others v (hv p (le_refl _) (by omega))

/-- The probing walk finds a present entry exactly where there is a page. -/
theorem lookupPage_eq_none_iff {v : Addr} {f : Frame} {g : Page → Page} {m : Mem}
    (hd : descend (treeOf L m) 4 (rootOf cr3) (upperPath v) = some (f, g)) :
    lookupPage L m cr3 v = none ↔
      m.load (entryAddr L f (v.extractLsb' 12 9)) &&& pagePresent = 0 := by
  rw [lookupPage_last hd, and_pagePresent_eq_zero_iff, ← decode_eq_absent_iff 0]
  generalize m.load (entryAddr L f (v.extractLsb' 12 9)) = e
  cases h0 : e.getLsbD 0 with
  | false => rw [(decode_eq_absent_iff 0 e).mpr h0]; simp [Slot.value]
  | true => rw [decode, if_pos h0]; simp [Slot.value]

/-- A walk maps nothing; where the page is there it stays. -/
theorem Walked.rangeMapped {p : Addr} (hw : Walked L cr3 hi s s') (hg : Grown L cr3 s s')
    (hp : p.toNat % 4096 = 0) (hlt : p.toNat < 2 ^ 46) {f : Frame} {g : Page → Page}
    (hd : descend (treeOf L s'.mem) 4 (rootOf cr3) (upperPath (physToVirt L p)) = some (f, g))
    (hsome : lookupPage L s'.mem cr3 (physToVirt L p) ≠ none) :
    RangeMapped L cr3 hi p.toNat (p.toNat + 4096) s s' := by
  have hlook : ∀ v, lookupPage L s'.mem cr3 v = lookupPage L s.mem cr3 v := fun v =>
    hw.lookup_eq _ (path_length v)
  refine ⟨hw.space, fun q r hq => hg.descend_eq hq, ?_, fun v _ => hlook v⟩
  intro x hx1 hx2
  have hpage : pageOf (physToVirt L x) = pageOf (physToVirt L p) := by
    rw [pageOf_physToVirt_iff (by omega) hlt]
    omega
  obtain ⟨pg, hpg⟩ := Option.ne_none_iff_exists'.mp hsome
  have hpg' : lookupPage L s'.mem cr3 (physToVirt L x) = some pg := by
    rw [lookupPage_congr hpage, hpg]
  exact ⟨⟨pg, hpg', Or.inl ((hlook _).symm.trans hpg')⟩, (f, g), by rw [upperPath_congr hpage, hd]⟩

/-- A walk before does not matter. -/
theorem RangeMapped.of_walked (h : RangeMapped L cr3 hi lo stop s' s'')
    (hw : Walked L cr3 hi s s') (hg : Grown L cr3 s s') : RangeMapped L cr3 hi lo stop s s'' := by
  have hlook : ∀ v, lookupPage L s'.mem cr3 v = lookupPage L s.mem cr3 v := fun v =>
    hw.lookup_eq _ (path_length v)
  refine ⟨h.space, fun q r hq => h.tables q r (hg.descend_eq hq), ?_, ?_⟩
  · intro x hx1 hx2
    rw [← hlook]
    exact h.inside x hx1 hx2
  · intro v hv
    rw [← hlook]
    exact h.outside v hv

/-- A round is the probing walk, with or without `map_page` after it. -/
theorem mapRangePage_cases (L : Layout) (s : MmState) (p : Addr) (iskernel writeable : Bool)
    (cr3 : Word) :
    mapRangePage L s p iskernel writeable cr3 = (getPageEntry L s (physToVirt L p) false cr3).2 ∨
    mapRangePage L s p iskernel writeable cr3 =
      mapPage L (getPageEntry L s (physToVirt L p) false cr3).2 (physToVirt L p) p iskernel writeable
        cr3 := by
  simp only [mapRangePage]
  cases getPageEntry L s (physToVirt L p) false cr3 with
  | mk pte s' =>
    cases pte with
    | none => exact Or.inr rfl
    | some pte =>
      simp only
      split_ifs
      · exact Or.inl rfl
      · exact Or.inr rfl

theorem mapPage_suffix (L : Layout) (s : MmState) (v p : Addr) (iskernel writeable : Bool)
    (cr3 : Word) : s.allocs <:+ (mapPage L s v p iskernel writeable cr3).allocs := by
  rw [(mapPage_heap L s v p iskernel writeable cr3).1]
  exact getPageEntry_suffix L s _ true cr3

/-- The blocks of the probing walk are among those of the round. -/
theorem mapRangePage_walk_suffix (L : Layout) (s : MmState) (p : Addr) (iskernel writeable : Bool)
    (cr3 : Word) : (getPageEntry L s (physToVirt L p) false cr3).2.allocs <:+
      (mapRangePage L s p iskernel writeable cr3).allocs := by
  rcases mapRangePage_cases L s p iskernel writeable cr3 with h | h
  · rw [h]
  · rw [h]
    exact mapPage_suffix L _ _ p iskernel writeable cr3

theorem mapRangePage_suffix (L : Layout) (s : MmState) (p : Addr) (iskernel writeable : Bool)
    (cr3 : Word) : s.allocs <:+ (mapRangePage L s p iskernel writeable cr3).allocs :=
  (getPageEntry_suffix L s _ false cr3).trans
    (mapRangePage_walk_suffix L s p iskernel writeable cr3)

/-- **One round** maps one page. -/
theorem mapRangePage_spec {p : Addr} (hs : AddrSpace L cr3 hi s) (hp : p.toNat % 4096 = 0)
    (hlt : p.toNat < 2 ^ 46) (iskernel writeable : Bool)
    (hfit : Fit hi s (mapRangePage L s p iskernel writeable cr3)) :
    RangeMapped L cr3 hi p.toNat (p.toNat + 4096) s
      (mapRangePage L s p iskernel writeable cr3) := by
  obtain ⟨hfit1, hfit2⟩ := hfit.split (getPageEntry_suffix L s (physToVirt L p) false cr3)
    (mapRangePage_walk_suffix L s p iskernel writeable cr3)
  simp only [mapRangePage] at hfit2 ⊢
  rcases getPageEntry_grown hs (physToVirt L p) false hfit1 with
    ⟨-, habs, hr⟩ | ⟨f, g, s', hr, hd, hw, hg⟩
  · -- an upper level is absent: the page is not there
    rw [hr] at hfit2 ⊢
    exact mapPage_rangeMapped hs hp hlt habs.lookupPage_eq iskernel writeable hfit2
  rw [hr] at hfit2 ⊢
  simp only at hfit2 ⊢
  by_cases hzero : s'.mem.load (entryAddr L f ((physToVirt L p).extractLsb' 12 9)) &&& pagePresent = 0
  · rw [if_neg (not_not.mpr hzero)] at hfit2 ⊢
    have hnone := (lookupPage_eq_none_iff hd).mpr hzero
    exact (mapPage_rangeMapped hw.space hp hlt hnone iskernel writeable hfit2).of_walked hw hg
  · rw [if_pos hzero]
    exact hw.rangeMapped hg hp hlt hd fun hnone => hzero ((lookupPage_eq_none_iff hd).mp hnone)

/-- Where the page is mapped by a level-1 entry a round changes nothing. -/
theorem mapRangePage_of_mapped {p : Addr} {r : Frame × (Page → Page)} {pg : Page}
    (hd : descend (treeOf L s.mem) 4 (rootOf cr3) (upperPath (physToVirt L p)) = some r)
    (hpg : lookupPage L s.mem cr3 (physToVirt L p) = some pg) (iskernel writeable : Bool) :
    mapRangePage L s p iskernel writeable cr3 = s := by
  obtain ⟨f, g⟩ := r
  have hne : s.mem.load (entryAddr L f ((physToVirt L p).extractLsb' 12 9)) &&& pagePresent ≠ 0 := by
    intro hzero
    rw [(lookupPage_eq_none_iff hd).mpr hzero] at hpg
    cases hpg
  simp only [mapRangePage, getPageEntry_of_descend false hd]
  rw [if_pos hne]

/-! ## The loop -/

/-- The loop ends. -/
theorem mapRangeLoop_returns (L : Layout) (cr3 : Word) {stop : Addr} (hstop : stop.toNat ≤ 2 ^ 46)
    (iskernel writeable : Bool) (fuel : ℕ) {p : Addr}
    (hfuel : stop.toNat ≤ p.toNat + fuel * 4096) (s : MmState) :
    ∃ s', mapRangeLoop L stop iskernel writeable cr3 (fuel + 1) p s = some s' := by
  induction fuel generalizing p s with
  | zero =>
    have hlt : ¬ p < stop := by
      rw [BitVec.lt_def]
      omega
    exact ⟨s, by rw [mapRangeLoop, if_neg hlt]⟩
  | succ fuel ih =>
    rw [mapRangeLoop]
    by_cases hlt : p < stop
    · have hlt' : p.toNat < stop.toNat := hlt
      have hnext : (p + 0x1000#64).toNat = p.toNat + 4096 := toNat_add_ofNat (i := 4096) (by omega)
      rw [if_pos hlt]
      exact ih (by omega) _
    · exact ⟨s, by rw [if_neg hlt]⟩

theorem mapRangeLoop_suffix {stop : Addr} (iskernel writeable : Bool) (fuel : ℕ) {p : Addr}
    (h : mapRangeLoop L stop iskernel writeable cr3 fuel p s = some s') :
    s.allocs <:+ s'.allocs := by
  induction fuel generalizing p s with
  | zero => cases h
  | succ fuel ih =>
    rw [mapRangeLoop] at h
    split_ifs at h with hlt
    · exact (mapRangePage_suffix L s p iskernel writeable cr3).trans (ih h)
    · cases h
      exact List.suffix_rfl

/-- **The loop** from `p` to `stop` maps the pages between them. -/
theorem mapRangeLoop_spec {stop : Addr} (hstop : stop.toNat ≤ 2 ^ 46) (hal : stop.toNat % 4096 = 0)
    (iskernel writeable : Bool) (fuel : ℕ) {p : Addr} (hp : p.toNat % 4096 = 0)
    (hs : AddrSpace L cr3 hi s)
    (h : mapRangeLoop L stop iskernel writeable cr3 fuel p s = some s') (hfit : Fit hi s s') :
    RangeMapped L cr3 hi p.toNat (max p.toNat stop.toNat) s s' := by
  induction fuel generalizing p s with
  | zero => cases h
  | succ fuel ih =>
    rw [mapRangeLoop] at h
    by_cases hlt : p < stop
    · have hlt' : p.toNat < stop.toNat := hlt
      have hnext : (p + 0x1000#64).toNat = p.toNat + 4096 := toNat_add_ofNat (i := 4096) (by omega)
      rw [if_pos hlt] at h
      obtain ⟨hfit1, hfit2⟩ := hfit.split (mapRangePage_suffix L s p iskernel writeable cr3)
        (mapRangeLoop_suffix iskernel writeable fuel h)
      have hfirst := mapRangePage_spec hs hp (by omega) iskernel writeable hfit1
      have hrest := ih (by omega) hfirst.space h hfit2
      rw [hnext, max_eq_right (by omega)] at hrest
      rw [max_eq_right (by omega)]
      exact hfirst.trans hrest (by omega) (by omega) (by omega) hstop
    · have hlt' : ¬ p.toNat < stop.toNat := hlt
      rw [if_neg hlt] at h
      cases h
      rw [max_eq_left (by omega)]
      exact .refl hs

/-- Where every page is mapped by a level-1 entry the loop changes nothing. -/
theorem mapRangeLoop_again {stop : Addr} (hstop : stop.toNat ≤ 2 ^ 46) (iskernel writeable : Bool)
    (fuel : ℕ) {p : Addr} (hfuel : stop.toNat ≤ p.toNat + fuel * 4096)
    (hmapped : ∀ x : Addr, p.toNat ≤ x.toNat → x.toNat < stop.toNat →
      mapRangePage L s x iskernel writeable cr3 = s) :
    mapRangeLoop L stop iskernel writeable cr3 (fuel + 1) p s = some s := by
  induction fuel generalizing p with
  | zero =>
    have hlt : ¬ p < stop := by
      rw [BitVec.lt_def]
      omega
    rw [mapRangeLoop, if_neg hlt]
  | succ fuel ih =>
    rw [mapRangeLoop]
    by_cases hlt : p < stop
    · have hlt' : p.toNat < stop.toNat := hlt
      have hnext : (p + 0x1000#64).toNat = p.toNat + 4096 := toNat_add_ofNat (i := 4096) (by omega)
      rw [if_pos hlt, hmapped p (le_refl _) hlt']
      exact ih (by omega) fun x hx1 hx2 => hmapped x (by omega) hx2
    · rw [if_neg hlt]

end Range

/-! ## `map_physical_range` -/

section Call

variable {L : Layout} {cr3 : Word} {hi : ℕ} {s : MmState} {physAddr : Addr} {size : BitVec 32}

/-- Where the loop starts and stops. -/
theorem toNat_range (hbound : physAddr.toNat + size.toNat + 0xFFF < 2 ^ 46) :
    (physAddr &&& ~~~0xFFF#64).toNat = 4096 * (physAddr.toNat / 4096) ∧
    ((physAddr + size.setWidth 64 + 0xFFF#64) &&& ~~~0xFFF#64).toNat =
      4096 * ((physAddr.toNat + size.toNat + 0xFFF) / 4096) := by
  have hsize := size.isLt
  have hsum : (physAddr + size.setWidth 64 + 0xFFF#64).toNat =
      physAddr.toNat + size.toNat + 0xFFF := by
    rw [BitVec.toNat_add, BitVec.toNat_add, BitVec.toNat_setWidth,
      show (0xFFF#64).toNat = 0xFFF from rfl]
    omega
  have hmask := toNat_and_mask (show ~~~0xFFF#64 = BitVec.allOnes 64 <<< 12 by decide)
  exact ⟨(hmask _).trans (Nat.mul_comm _ _), (hmask _).trans (by rw [hsum]; exact Nat.mul_comm _ _)⟩

/-- The addresses between them are those of the pages taken. -/
theorem taken_iff (physAddr : Addr) (size : BitVec 32) (x : Addr) :
    Taken physAddr size x ↔ 4096 * (physAddr.toNat / 4096) ≤ x.toNat ∧
      x.toNat < 4096 * ((physAddr.toNat + size.toNat + 0xFFF) / 4096) := by
  have hsize : size = 0 ↔ size.toNat = 0 := by
    rw [← BitVec.toNat_inj]
    rfl
  constructor
  · intro h
    rcases h with ⟨y, h1, h2, h3⟩ | ⟨h1, h2, h3⟩
    · omega
    · have := hsize.mp h1
      omega
  · intro h
    by_cases hzero : size.toNat = 0
    · exact Or.inr ⟨hsize.mpr hzero, by omega, by omega⟩
    · refine Or.inl ⟨max physAddr.toNat (4096 * (x.toNat / 4096)), le_max_left _ _, ?_, ?_⟩
      · omega
      · omega

/-- **`map_physical_range`** returns, and with room for the tables it needs
    * every page it takes is mapped in the direct map, which is still linear;
    * no other page changes, and pages that were there keep their rights;
    * a second call changes nothing. -/
theorem mapPhysicalRange_covers (hs : AddrSpace L cr3 hi s) (hlin : Linear L s.mem cr3)
    (hbound : physAddr.toNat + size.toNat + 0xFFF < 2 ^ 46) (iskernel writeable : Bool) :
    ∃ s', mapPhysicalRange L s physAddr size iskernel writeable cr3 = some s' ∧ (Fit hi s s' →
      (∀ x, Taken physAddr size x →
        ∃ t, translate L s'.mem cr3 (physToVirt L x) = some t ∧ t.phys = x) ∧
      Linear L s'.mem cr3 ∧
      (∀ v, (∀ x, Taken physAddr size x → pageOf v ≠ pageOf (physToVirt L x)) →
        translate L s'.mem cr3 v = translate L s.mem cr3 v) ∧
      (∀ x t, Taken physAddr size x → translate L s.mem cr3 (physToVirt L x) = some t →
        translate L s'.mem cr3 (physToVirt L x) = some t) ∧
      mapPhysicalRange L s' physAddr size iskernel writeable cr3 = some s') := by
  obtain ⟨hstart, hstop⟩ := toNat_range hbound
  have hsize := size.isLt
  have htaken := taken_iff physAddr size
  simp only [mapPhysicalRange]
  generalize physAddr &&& ~~~0xFFF#64 = start at hstart ⊢
  generalize (physAddr + size.setWidth 64 + 0xFFF#64) &&& ~~~0xFFF#64 = stop at hstop ⊢
  simp only [← hstart, ← hstop] at htaken
  have hle : stop.toNat ≤ 2 ^ 46 := by omega
  have hfuel : stop.toNat ≤ start.toNat + (2 ^ 20 + 1) * 4096 := by omega
  obtain ⟨s', hs'⟩ := mapRangeLoop_returns L cr3 hle iskernel writeable _ hfuel s
  refine ⟨s', hs', fun hfit => ?_⟩
  have hmapped := mapRangeLoop_spec hle (by omega) iskernel writeable _ (by omega) hs hs' hfit
  have hinside := fun x (hx : Taken physAddr size x) =>
    hmapped.inside x ((htaken x).mp hx).1 (lt_max_of_lt_right ((htaken x).mp hx).2)
  have houtside : ∀ v, (∀ x, Taken physAddr size x → pageOf v ≠ pageOf (physToVirt L x)) →
      translate L s'.mem cr3 v = translate L s.mem cr3 v := by
    intro v hv
    rw [translate, translate, hmapped.outside v fun x hx1 hx2 => hv x ((htaken x).mpr (by omega))]
  have hcovered : ∀ x, Taken physAddr size x →
      ∃ t, translate L s'.mem cr3 (physToVirt L x) = some t ∧ t.phys = x := by
    intro x hx
    have hlt : x.toNat < 2 ^ 46 := by
      have := (htaken x).mp hx
      omega
    obtain ⟨⟨pg, hpg, hold⟩, -⟩ := hinside x hx
    have hframe : pg.frame = x.extractLsb' 12 40 := by
      rcases hold with hsame | ⟨-, hframe⟩
      · exact hlin.frame hlt hsame
      · exact hframe
    exact ⟨_, by rw [translate, hpg]; rfl, (phys_eq_iff hlt pg.frame).mpr hframe⟩
  refine ⟨hcovered, ?_, houtside, ?_, ?_⟩
  · intro x hx t ht
    by_cases hin : Taken physAddr size x
    · obtain ⟨t', ht', hphys⟩ := hcovered x hin
      rw [ht] at ht'
      obtain rfl := Option.some.inj ht'
      exact hphys
    · -- a page that is not taken is shown at another place than those that are
      rw [houtside] at ht
      · exact hlin x hx t ht
      · intro y hy heq
        have hy' := (htaken y).mp hy
        rw [pageOf_physToVirt_iff hx (by omega)] at heq
        exact hin ((htaken x).mpr (by omega))
  · intro x t hx ht
    obtain ⟨⟨pg, hpg, hold⟩, -⟩ := hinside x hx
    rcases hold with hsame | ⟨hnone, -⟩
    · rw [translate, hpg, ← hsame, ← translate, ht]
    · rw [translate, hnone] at ht
      cases ht
  · refine mapRangeLoop_again hle iskernel writeable _ hfuel fun x hx1 hx2 => ?_
    obtain ⟨⟨pg, hpg, -⟩, r, hr⟩ := hinside x ((htaken x).mpr ⟨hx1, hx2⟩)
    exact mapRangePage_of_mapped hr hpg iskernel writeable

/-! ## Room -/

/-- With room for six pages a round fits, and the rest of the room is left. -/
theorem mapRangePage_room {m : ℕ} (hroom : s.HasRoom (6 * 4096 + m) hi) (hhi : hi < 2 ^ 64)
    (p : Addr) (iskernel writeable : Bool) :
    Fit hi s (mapRangePage L s p iskernel writeable cr3) ∧
      (mapRangePage L s p iskernel writeable cr3).HasRoom m hi := by
  rw [show 6 * 4096 + m = 3 * 4096 + (3 * 4096 + m) by omega] at hroom
  have hprobe : Fit hi s (getPageEntry L s (physToVirt L p) false cr3).2 ∧
      (getPageEntry L s (physToVirt L p) false cr3).2.HasRoom (3 * 4096 + m) hi :=
    getPageEntry_room hroom hhi _ false
  rcases mapRangePage_cases L s p iskernel writeable cr3 with h | h
  · rw [h]
    refine ⟨hprobe.1, ?_⟩
    have hroom' := hprobe.2
    unfold MmState.HasRoom at hroom' ⊢
    omega
  · rw [h]
    generalize (getPageEntry L s (physToVirt L p) false cr3).2 = s' at hprobe ⊢
    have hwalk : Fit hi s' (getPageEntry L s' (physToVirt L p &&& ~~~0xFFF#64) true cr3).2 ∧
        (getPageEntry L s' (physToVirt L p &&& ~~~0xFFF#64) true cr3).2.HasRoom m hi :=
      getPageEntry_room hprobe.2 hhi _ true
    obtain ⟨hallocs, hplace⟩ := mapPage_heap L s' (physToVirt L p) p iskernel writeable cr3
    obtain ⟨⟨bs, hbs, hin⟩, hroom'⟩ := hwalk
    refine ⟨hprobe.1.trans ⟨bs, hallocs.trans hbs, hin⟩, ?_⟩
    unfold MmState.HasRoom at hroom' ⊢
    rw [hplace]
    exact hroom'

theorem mapRangeLoop_fit {stop : Addr} {s' : MmState} (hhi : hi < 2 ^ 64)
    (hstop : stop.toNat ≤ 2 ^ 46) (iskernel writeable : Bool) (fuel n : ℕ) {p : Addr}
    (hn : stop.toNat ≤ p.toNat + n * 4096) (hroom : s.HasRoom (n * (6 * 4096)) hi)
    (h : mapRangeLoop L stop iskernel writeable cr3 fuel p s = some s') : Fit hi s s' := by
  induction fuel generalizing p s n with
  | zero => cases h
  | succ fuel ih =>
    rw [mapRangeLoop] at h
    by_cases hlt : p < stop
    · have hlt' : p.toNat < stop.toNat := hlt
      have hnext : (p + 0x1000#64).toNat = p.toNat + 4096 := toNat_add_ofNat (i := 4096) (by omega)
      obtain ⟨k, rfl⟩ : ∃ k, n = k + 1 := ⟨n - 1, by omega⟩
      rw [show (k + 1) * (6 * 4096) = 6 * 4096 + k * (6 * 4096) by omega] at hroom
      rw [if_pos hlt] at h
      have hround : Fit hi s (mapRangePage L s p iskernel writeable cr3) ∧
          (mapRangePage L s p iskernel writeable cr3).HasRoom (k * (6 * 4096)) hi :=
        mapRangePage_room hroom hhi p iskernel writeable
      exact hround.1.trans (ih k (by omega) hround.2 h)
    · rw [if_neg hlt] at h
      cases h
      exact Fit.refl

end Call

/-! ## A direct map with nothing in it -/

section Empty

theorem emptyState_lookupPage (v : Addr) : lookupPage gibLayout emptyState.mem 0 v = none := by
  rw [lookupPage, path, lookup_cons]
  simp only [treeOf]
  rw [emptyState_load, decode_zero]
  rfl

theorem emptyState_linear : Linear gibLayout emptyState.mem 0 := by
  intro x _ t ht
  rw [translate, emptyState_lookupPage] at ht
  cases ht

theorem emptyState_room : emptyState.HasRoom (2 * (6 * 4096)) 0x40100000 := by
  unfold MmState.HasRoom
  decide

/-- A range of one page in size that starts in the middle of a page. -/
theorem mapPhysicalRange_covers_two_pages :
    ∃ s', mapPhysicalRange gibLayout emptyState 0x1800 0x1000 true true 0 = some s' ∧
      Linear gibLayout s'.mem 0 ∧
      ∀ x, Taken 0x1800 0x1000 x →
        ∃ t, translate gibLayout s'.mem 0 (physToVirt gibLayout x) = some t ∧ t.phys = x := by
  have hbound : (0x1800 : Addr).toNat + (0x1000 : BitVec 32).toNat + 0xFFF < 2 ^ 46 := by decide
  obtain ⟨s', hs', h⟩ := mapPhysicalRange_covers emptyState_addrSpace emptyState_linear hbound true
    true
  have hfit : Fit 0x40100000 emptyState s' :=
    mapRangeLoop_fit (by norm_num) (by decide) true true (2 ^ 20 + 2) 2 (by decide) emptyState_room hs'
  exact ⟨s', hs', (h hfit).2.1, (h hfit).1⟩

/-- For an empty range in the middle of a page the page is mapped. -/
theorem mapPhysicalRange_empty_range :
    (∀ x, ¬ Touches 0x1800 0 x) ∧ lookupPage gibLayout emptyState.mem 0 0x40001000 = none ∧
    ∃ s' pg, mapPhysicalRange gibLayout emptyState 0x1800 0 true true 0 = some s' ∧
      lookupPage gibLayout s'.mem 0 0x40001000 = some pg := by
  refine ⟨?_, emptyState_lookupPage _, ?_⟩
  · intro x hx
    obtain ⟨y, h1, h2, -⟩ := hx
    have hzero : (0 : BitVec 32).toNat = 0 := rfl
    omega
  · have hle : ((0x1800#64 + (0#32).setWidth 64 + 0xFFF#64) &&& ~~~0xFFF#64).toNat ≤ 2 ^ 46 := by
      decide
    obtain ⟨s', hs'⟩ := mapRangeLoop_returns gibLayout 0 hle true true (2 ^ 20 + 1)
      (show _ ≤ (0x1800#64 &&& ~~~0xFFF#64).toNat + _ by decide) emptyState
    have hfit : Fit 0x40100000 emptyState s' :=
      mapRangeLoop_fit (by norm_num) hle true true (2 ^ 20 + 2) 2 (by decide) emptyState_room hs'
    have hmapped := mapRangeLoop_spec hle (by decide) true true _ (by decide) emptyState_addrSpace hs'
      hfit
    obtain ⟨⟨pg, hpg, -⟩, -⟩ := hmapped.inside 0x1000 (by decide) (by decide)
    exact ⟨s', pg, hs', hpg⟩

end Empty

end HorizonOS.Paging
