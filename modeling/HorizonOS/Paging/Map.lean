import HorizonOS.Paging.Walk

/-!
# `map_page` and `unmap_page` are point updates of the address space

`map_page` (arch/x86_64/memory/paging.c:171–198) and `unmap_page`
(paging.c:244–264) find the level-1 entry of an address with `get_page_entry`
and write it. The walk changes no translation, so each call changes the
translation of one page.

Results:
* `AddrSpace.writeLast`: writing a level-1 entry changes one page.
* `unmapPage_spec`: the two outcomes of `unmap_page`.
* `mapPage_unmapPage_point`: both calls as point updates.
-/

namespace HorizonOS.Paging

open HorizonOS.Lib HorizonOS.Lib.Radix HorizonOS.Libc HorizonOS.Mm

/-! ## Model -/

/-- `map_page(virt_addr, phys_addr, iskernel, writeable, cr3)` (paging.c:171–198). -/
def mapPage (L : Layout) (s : MmState) (virtAddr physAddr : Addr) (iskernel writeable : Bool)
    (cr3 : Word) : MmState :=
  let virtAddr := virtAddr &&& ~~~0xFFF#64
  let physAddr := physAddr &&& ~~~0xFFF#64
  match getPageEntry L s virtAddr true cr3 with
  | (none, s) => s
  | (some pte, s) =>
    let s := s.write pte (physAddr ||| pagePresent)
    let s := if writeable then s.write pte (s.mem.load pte ||| pageWrite) else s
    let s := if ¬ iskernel then s.write pte (s.mem.load pte ||| pageUser) else s
    invalidatePage s virtAddr

/-- `unmap_page(addr, pml4_addr)` (paging.c:244–264). -/
def unmapPage (L : Layout) (s : MmState) (addr pml4Addr : Addr) : Addr × MmState :=
  let addr := addr &&& ~~~0xFFF#64
  match getPageEntry L s addr false pml4Addr with
  | (none, s) => (0, s)
  | (some pte, s) =>
    if s.mem.load pte &&& pagePresent = 0 then (0, s)
    else
      let frame := pageGetAddr (s.mem.load pte)
      let s := s.write pte 0
      (frame, if pml4Addr = pageGetAddr s.cr3 then invalidatePage s addr else s)

/-! ## Pages -/

theorem extract_and_not_fff (v : Addr) {a : ℕ} (ha : 12 ≤ a) (n : ℕ) :
    (v &&& ~~~0xFFF#64).extractLsb' a n = v.extractLsb' a n := by
  apply BitVec.eq_of_getLsbD_eq
  intro k hk
  rw [BitVec.getLsbD_extractLsb', BitVec.getLsbD_extractLsb', getLsbD_and_not_fff]
  simp [show 12 ≤ a + k by omega]

/-- Rounding down to a page does not change the path. -/
theorem path_align (v : Addr) : path (v &&& ~~~0xFFF#64) = path v := by
  simp only [path]
  rw [extract_and_not_fff v (by norm_num), extract_and_not_fff v (by norm_num),
    extract_and_not_fff v (by norm_num), extract_and_not_fff v (by norm_num)]

/-- The bits of an index are bits of the page number. -/
theorem getLsbD_index (v : Addr) {a k : ℕ} (hk : k < 9) (ha : 12 ≤ a) (hle : a ≤ 39) :
    (v.extractLsb' a 9).getLsbD k = (pageOf v).getLsbD (a - 12 + k) := by
  rw [pageOf, BitVec.getLsbD_extractLsb', BitVec.getLsbD_extractLsb']
  simp [hk, show a - 12 + k < 36 by omega, show 12 + (a - 12 + k) = a + k by omega]

/-- Addresses have the same path when they lie in the same page. -/
theorem path_eq_iff (v w : Addr) : path w = path v ↔ pageOf w = pageOf v := by
  constructor
  · intro h
    simp only [path, List.cons.injEq, and_true] at h
    obtain ⟨h1, h2, h3, h4⟩ := h
    apply BitVec.eq_of_getLsbD_eq
    intro k hk
    -- bit `k` of the page number is a bit of the index of one level
    have key : ∀ a, 12 ≤ a → a ≤ 39 → a - 12 ≤ k → k < a - 12 + 9 →
        w.extractLsb' a 9 = v.extractLsb' a 9 → (pageOf w).getLsbD k = (pageOf v).getLsbD k := by
      intro a ha1 ha2 hk1 hk2 he
      have h1 := getLsbD_index w (k := k - (a - 12)) (by omega) ha1 ha2
      have h2 := getLsbD_index v (k := k - (a - 12)) (by omega) ha1 ha2
      rw [show a - 12 + (k - (a - 12)) = k by omega] at h1 h2
      rw [← h1, ← h2, he]
    by_cases h9 : k < 9
    · exact key 12 (by norm_num) (by norm_num) (by omega) (by omega) h4
    by_cases h18 : k < 18
    · exact key 21 (by norm_num) (by norm_num) (by omega) (by omega) h3
    by_cases h27 : k < 27
    · exact key 30 (by norm_num) (by norm_num) (by omega) (by omega) h2
    · exact key 39 (by norm_num) (by norm_num) (by omega) (by omega) h1
  · intro h
    have key : ∀ a, 12 ≤ a → a ≤ 39 → w.extractLsb' a 9 = v.extractLsb' a 9 := by
      intro a ha1 ha2
      apply BitVec.eq_of_getLsbD_eq
      intro k hk
      rw [getLsbD_index w hk ha1 ha2, getLsbD_index v hk ha1 ha2, h]
    simp only [path]
    rw [key 39 (by norm_num) (by norm_num), key 30 (by norm_num) (by norm_num),
      key 21 (by norm_num) (by norm_num), key 12 (by norm_num) (by norm_num)]

/-! ## Writing a level-1 entry -/

section Write

variable {L : Layout} {cr3 : Word} {hi : ℕ} {s s' : MmState} {f : Frame} {g : Page → Page} {v : Addr}

theorem decode_last_not_table (e : Word) : ¬ (decode 0 e).IsTable := by
  rw [decode]
  split_ifs <;> exact not_false

theorem decode_eq_table {l : ℕ} {e : Word} (h : decode l e = .table f g) : g = restrict e := by
  match l with
  | 0 => exact absurd (by rw [h]; trivial) (decode_last_not_table e)
  | 1 | 2 =>
    rw [decode] at h
    split_ifs at h
    injection h with _ hg
    exact hg.symm
  | l + 3 =>
    rw [decode] at h
    split_ifs at h
    injection h with _ hg
    exact hg.symm

/-- Pointers restrict the rights of a page and leave its frame. -/
theorem descend_frame {m : Mem} {l : ℕ} {t : Frame} {p : List (BitVec 9)}
    (h : descend (treeOf L m) l t p = some (f, g)) (pg : Page) : (g pg).frame = pg.frame := by
  induction p generalizing l t g with
  | nil =>
    simp only [descend_nil, Option.some.injEq, Prod.mk.injEq] at h
    rw [← h.2]
    rfl
  | cons i p ih =>
    cases l with
    | zero => simp [descend] at h
    | succ l =>
      obtain ⟨r, gr, gx, hs, hx, rfl⟩ := exists_of_descend_cons h
      rw [Function.comp_apply, decode_eq_table hs]
      exact ih hx

/-- A store to the level-1 entry of `v` changes that entry only. -/
theorem setLast_store {m : Mem}
    (hd : descend (treeOf L m) 4 (rootOf cr3) (upperPath v) = some (f, g)) (e : Word) :
    SetLast (treeOf L m) (treeOf L (m.store (entryAddr L f (v.extractLsb' 12 9)) e)) (rootOf cr3)
      (upperPath v) f (v.extractLsb' 12 9) g := by
  refine ⟨⟨?_, fun _ _ _ => Set.notMem_empty _⟩, hd, decode_last_not_table _,
    decode_last_not_table _⟩
  intro l t j _ hne
  simp only [treeOf]
  rw [load_entry_store hne]

/-- Writing the level-1 entry of `v` changes the lookup of its page only. -/
theorem AddrSpace.writeLast (hs : AddrSpace L cr3 hi s)
    (hd : descend (treeOf L s.mem) 4 (rootOf cr3) (upperPath v) = some (f, g)) (e : Word)
    (hmem : s'.mem = s.mem.store (entryAddr L f (v.extractLsb' 12 9)) e)
    (hpl : s'.placementAddress = s.placementAddress) :
    AddrSpace L cr3 hi s' ∧
    lookup (treeOf L s'.mem) (rootOf cr3) (path v) = ((decode 0 e).value (treeOf L s'.mem) []).map g ∧
    ∀ w, w.length = 4 → w ≠ path v →
      lookup (treeOf L s'.mem) (rootOf cr3) w = lookup (treeOf L s.mem) (rootOf cr3) w := by
  have hload : s'.mem.load (entryAddr L f (v.extractLsb' 12 9)) = e := by
    rw [hmem, Mem.load_store_self]
  have hset := setLast_store hd e
  rw [← hmem] at hset
  have hun : Unshared (treeOf L s.mem) ((upperPath v).length + 1) (rootOf cr3) := hs.unshared
  refine ⟨⟨setLast_unshared hset hun, ?_, ?_, ?_, hs.hi_aligned, hs.hi_le, hs.hi_phys⟩, ?_, ?_⟩
  · rintro q t ⟨gt, hq⟩
    have hdesc : descend (treeOf L s'.mem) 4 (rootOf cr3) q = _ := setLast_descend hset hun q
    rw [hpl]
    exact hs.clear q t ⟨gt, hdesc.symm.trans hq⟩
  · rw [hpl]; exact hs.hhdm_le
  · rw [hpl]; exact hs.placement_le
  · rw [path_eq, setLast_lookup_self hset hun]
    simp only [treeOf, hload]
  · intro w hw hne
    exact setLast_lookup_of_ne hset hun hw hne

/-- Below an absent upper entry nothing is found. -/
theorem UpperAbsent.lookupPage_eq {m : Mem} (h : UpperAbsent L m cr3 v) :
    lookupPage L m cr3 v = none := by
  obtain ⟨q, j, r, t, hq, -, ⟨gt, ht⟩, habs⟩ := h
  have hlen : q.length + (j :: r).length = 4 := by
    rw [← List.length_append, hq, path_length]
  rw [lookupPage, ← hq, lookup_append (h := gt) (n := t) (by rw [hlen]; exact ht), lookup_cons, habs]
  rfl

/-- The level-1 entry decides the lookup. -/
theorem lookupPage_last {m : Mem}
    (hd : descend (treeOf L m) 4 (rootOf cr3) (upperPath v) = some (f, g)) :
    lookupPage L m cr3 v =
      ((decode 0 (m.load (entryAddr L f (v.extractLsb' 12 9)))).value (treeOf L m) []).map g := by
  rw [lookupPage, path_eq, lookup_append (w := [v.extractLsb' 12 9]) hd, lookup_cons]
  rfl

/-- From `s` to `s'` the page of `v` has come to be `pg`, and nothing else changed that
    a translation depends on. -/
structure PointUpdate (L : Layout) (cr3 : Word) (hi : ℕ) (v : Addr) (pg : Option Page)
    (s s' : MmState) : Prop where
  space : AddrSpace L cr3 hi s'
  page : ∀ w, pageOf w = pageOf v → lookupPage L s'.mem cr3 w = pg
  others : ∀ w, pageOf w ≠ pageOf v → lookupPage L s'.mem cr3 w = lookupPage L s.mem cr3 w
  cr3_eq : s'.cr3 = s.cr3
  heap : ∀ lo, HeapInv lo s → HeapInv lo s'

theorem lookupPage_congr {w : Addr} (h : pageOf w = pageOf v) (m : Mem) :
    lookupPage L m cr3 w = lookupPage L m cr3 v := by
  rw [lookupPage, (path_eq_iff v w).mpr h, lookupPage]

/-- A walk to the level-1 entry of `v` and a write there update the page of `v`. -/
theorem Walked.pointUpdate {s₀ : MmState} (hw : Walked L cr3 hi s₀ s)
    (hd : descend (treeOf L s.mem) 4 (rootOf cr3) (upperPath v) = some (f, g)) (e : Word)
    (hmem : s'.mem = s.mem.store (entryAddr L f (v.extractLsb' 12 9)) e)
    (hpl : s'.placementAddress = s.placementAddress) (hcr3 : s'.cr3 = s.cr3)
    (hal : s'.allocs = s.allocs) :
    PointUpdate L cr3 hi v (((decode 0 e).value (treeOf L s'.mem) []).map g) s₀ s' := by
  obtain ⟨hspace, hself, hne⟩ := hw.space.writeLast hd e hmem hpl
  refine ⟨hspace, ?_, ?_, hcr3.trans hw.cr3_eq, ?_⟩
  · intro w h
    rw [lookupPage_congr h]
    exact hself
  · intro w h
    have hpath : path w ≠ path v := fun hp => h ((path_eq_iff v w).mp hp)
    exact (hne _ (path_length w) hpath).trans (hw.lookup_eq _ (path_length w))
  · intro lo hlo
    obtain ⟨h1, h2, h3⟩ := hw.heap lo hlo
    exact ⟨by rw [hpl]; exact h1, by rw [hpl, hal]; exact h2, by rw [hal]; exact h3⟩

/-- A walk alone leaves the page of `v` as it was. -/
theorem Walked.pointUpdate_same (hw : Walked L cr3 hi s s') (v : Addr) :
    PointUpdate L cr3 hi v (lookupPage L s.mem cr3 v) s s' := by
  refine ⟨hw.space, ?_, fun w _ => hw.lookup_eq _ (path_length w), hw.cr3_eq, hw.heap⟩
  intro w h
  rw [← lookupPage_congr h]
  exact hw.lookup_eq _ (path_length w)

theorem upperPath_align (v : Addr) : upperPath (v &&& ~~~0xFFF#64) = upperPath v := by
  simp only [upperPath]
  rw [extract_and_not_fff v (by norm_num), extract_and_not_fff v (by norm_num),
    extract_and_not_fff v (by norm_num)]

end Write

/-! ## The two calls -/

section Calls

variable {L : Layout} {cr3 : Word} {hi : ℕ} {s : MmState}

theorem unmapPage_snd_allocs (L : Layout) (s : MmState) (v cr3 : Addr) :
    (unmapPage L s v cr3).2.allocs = (getPageEntry L s (v &&& ~~~0xFFF#64) false cr3).2.allocs := by
  simp only [unmapPage]
  split
  · rename_i hr
    rw [hr]
  · rename_i hr
    rw [hr]
    split_ifs <;> rfl

/-- With room for three pages `unmap_page` fits. -/
theorem unmapPage_fit (hroom : s.HasRoom (3 * 4096) hi) (hhi : hi < 2 ^ 64) (v : Addr) :
    Fit hi s (unmapPage L s v cr3).2 := by
  have hwalk : Fit hi s (getPageEntry L s (v &&& ~~~0xFFF#64) false cr3).2 :=
    getPageEntry_fit hroom hhi _ false
  obtain ⟨bs, hbs, hin⟩ := hwalk
  exact ⟨bs, by rw [unmapPage_snd_allocs]; exact hbs, hin⟩

/-- Where the path of `v` is there `unmap_page` takes nothing from the heap. -/
theorem unmapPage_fit_of_descend {v : Addr} {f : Frame} {g : Page → Page}
    (hd : descend (treeOf L s.mem) 4 (rootOf cr3) (upperPath v) = some (f, g)) :
    Fit hi s (unmapPage L s v cr3).2 := by
  rw [← upperPath_align] at hd
  refine ⟨[], ?_, by simp⟩
  rw [unmapPage_snd_allocs, getPageEntry_of_descend false hd]
  rfl

/-- **`unmap_page`** takes the page of `v` out of the tables and returns its frame; it
    returns 0 where there was none. -/
theorem unmapPage_spec (hs : AddrSpace L cr3 hi s) (v : Addr)
    (hfit : Fit hi s (unmapPage L s v cr3).2) :
    PointUpdate L cr3 hi v none s (unmapPage L s v cr3).2 ∧
    (unmapPage L s v cr3).1 =
      (match lookupPage L s.mem cr3 v with
        | none => 0
        | some pg => frameAddr pg.frame) := by
  have hfit' : Fit hi s (getPageEntry L s (v &&& ~~~0xFFF#64) false cr3).2 := by
    obtain ⟨bs, hbs, hin⟩ := hfit
    exact ⟨bs, by rw [← unmapPage_snd_allocs]; exact hbs, hin⟩
  have hlook : lookupPage L s.mem cr3 (v &&& ~~~0xFFF#64) = lookupPage L s.mem cr3 v := by
    rw [lookupPage, path_align, lookupPage]
  rcases getPageEntry_spec hs _ false hfit' with ⟨-, habs, hr⟩ | ⟨f, g, s', hr, hd, hw⟩
  · -- an upper level is absent: nothing was mapped, and nothing is written
    have hnone : lookupPage L s.mem cr3 v = none := hlook ▸ habs.lookupPage_eq
    simp only [unmapPage, hr, hnone, and_true]
    exact hnone ▸ (Walked.refl hs).pointUpdate_same v
  rw [upperPath_align] at hd
  rw [extract_and_not_fff v (le_refl 12)] at hr
  have hlast := lookupPage_last hd
  rw [lookupPage, hw.lookup_eq _ (path_length v), ← lookupPage] at hlast
  simp only [unmapPage, hr, and_pagePresent_eq_zero_iff]
  generalize he : s'.mem.load (entryAddr L f (v.extractLsb' 12 9)) = e at hlast ⊢
  cases h0 : e.getLsbD 0 with
  | false =>
    -- the level-1 entry is absent
    rw [(decode_eq_absent_iff 0 e).mpr h0] at hlast
    have hnone : lookupPage L s.mem cr3 v = none := hlast
    simp only [hnone, if_true, and_true]
    exact hnone ▸ hw.pointUpdate_same v
  | true =>
    rw [decode, if_pos h0] at hlast
    have hsome : lookupPage L s.mem cr3 v = some (g (leafPage e (e.extractLsb' 12 40))) := hlast
    simp only [hsome, Bool.true_eq_false, if_false, descend_frame hd, leafPage, pageGetAddr_eq,
      and_true]
    split_ifs
    · exact hw.pointUpdate hd 0 rfl rfl rfl rfl
    · exact hw.pointUpdate hd 0 rfl rfl rfl rfl

/-- The entry that `map_page` leaves: the frame of the physical address and the flags. -/
def mapEntry (physAddr : Addr) (iskernel writeable : Bool) : Word :=
  let e := (physAddr &&& ~~~0xFFF#64) ||| pagePresent
  let e := if writeable then e ||| pageWrite else e
  if ¬ iskernel then e ||| pageUser else e

theorem getLsbD_mapEntry (p : Addr) (iskernel writeable : Bool) {k : ℕ} (hk : 12 ≤ k) :
    (mapEntry p iskernel writeable).getLsbD k = p.getLsbD k := by
  have hP : pagePresent.getLsbD k = false := by
    rw [pagePresent, BitVec.getLsbD_twoPow]; simp; omega
  have hW : pageWrite.getLsbD k = false := by
    rw [pageWrite, BitVec.getLsbD_twoPow]; simp; omega
  have hU : pageUser.getLsbD k = false := by
    rw [pageUser, BitVec.getLsbD_twoPow]; simp; omega
  simp only [mapEntry]
  split_ifs <;> simp only [BitVec.getLsbD_or, getLsbD_and_not_fff, hP, hW, hU] <;> simp [hk]

theorem mapEntry_present (p : Addr) (iskernel writeable : Bool) :
    (mapEntry p iskernel writeable).getLsbD 0 = true := by
  have hP : pagePresent.getLsbD 0 = true := by decide
  simp only [mapEntry]
  split_ifs <;> simp only [BitVec.getLsbD_or, hP, Bool.or_true, Bool.true_or]

/-- The flags are those that were asked for. -/
theorem mapEntry_flags (p : Addr) (iskernel writeable : Bool) :
    (mapEntry p iskernel writeable).getLsbD 1 = writeable ∧
      (mapEntry p iskernel writeable).getLsbD 2 = !iskernel := by
  have hP : pagePresent.getLsbD 1 = false ∧ pagePresent.getLsbD 2 = false := by decide
  have hW : pageWrite.getLsbD 1 = true ∧ pageWrite.getLsbD 2 = false := by decide
  have hU : pageUser.getLsbD 1 = false ∧ pageUser.getLsbD 2 = true := by decide
  cases iskernel <;> cases writeable <;>
    simp only [mapEntry, Bool.false_eq_true, not_false_eq_true, not_true_eq_false, if_true, if_false,
      BitVec.getLsbD_or, getLsbD_and_not_fff, hP, hW, hU] <;>
    exact ⟨rfl, rfl⟩

theorem mapEntry_frame (p : Addr) (iskernel writeable : Bool) :
    (mapEntry p iskernel writeable).extractLsb' 12 40 = p.extractLsb' 12 40 := by
  apply BitVec.eq_of_getLsbD_eq
  intro k hk
  rw [BitVec.getLsbD_extractLsb', BitVec.getLsbD_extractLsb', getLsbD_mapEntry _ _ _ (by omega)]

/-- The up to three writes of `map_page` are one write of `mapEntry`. -/
theorem mapPage_eq {v p : Addr} {iskernel writeable : Bool} {pte : Addr} {s' : MmState}
    (hr : getPageEntry L s (v &&& ~~~0xFFF#64) true cr3 = (some pte, s')) :
    mapPage L s v p iskernel writeable cr3 =
      invalidatePage (s'.write pte (mapEntry p iskernel writeable)) (v &&& ~~~0xFFF#64) := by
  simp only [mapPage, hr, mapEntry]
  cases iskernel <;> cases writeable <;>
    simp [MmState.write, Mem.store_store]

/-- `map_page` takes from the heap what the walk takes. -/
theorem mapPage_heap (L : Layout) (s : MmState) (v p : Addr) (iskernel writeable : Bool)
    (cr3 : Word) :
    (mapPage L s v p iskernel writeable cr3).allocs =
      (getPageEntry L s (v &&& ~~~0xFFF#64) true cr3).2.allocs ∧
    (mapPage L s v p iskernel writeable cr3).placementAddress =
      (getPageEntry L s (v &&& ~~~0xFFF#64) true cr3).2.placementAddress := by
  cases hr : getPageEntry L s (v &&& ~~~0xFFF#64) true cr3 with
  | mk pte s' =>
    cases pte with
    | none => simp only [mapPage, hr, and_self]
    | some pte =>
      rw [mapPage_eq hr]
      exact ⟨rfl, rfl⟩

/-- `map_page` walks to the level-1 entry of `v` and writes it. -/
theorem mapPage_walk (hs : AddrSpace L cr3 hi s) (v p : Addr) (iskernel writeable : Bool)
    (hfit : Fit hi s (getPageEntry L s (v &&& ~~~0xFFF#64) true cr3).2) :
    ∃ f g s', descend (treeOf L s'.mem) 4 (rootOf cr3) (upperPath v) = some (f, g) ∧
      Walked L cr3 hi s s' ∧ Grown L cr3 s s' ∧
      mapPage L s v p iskernel writeable cr3 =
        invalidatePage (s'.write (entryAddr L f (v.extractLsb' 12 9)) (mapEntry p iskernel writeable))
          (v &&& ~~~0xFFF#64) := by
  rcases getPageEntry_grown hs _ true hfit with ⟨hc, -⟩ | ⟨f, g, s', hr, hd, hw, hg⟩
  · exact absurd hc (by decide)
  rw [upperPath_align] at hd
  rw [extract_and_not_fff v (le_refl 12)] at hr
  exact ⟨f, g, s', hd, hw, hg, mapPage_eq hr⟩

/-- **`map_page`** makes the page of `v` the frame of `p`. -/
theorem mapPage_spec (hs : AddrSpace L cr3 hi s) (v p : Addr) (iskernel writeable : Bool)
    (hfit : Fit hi s (getPageEntry L s (v &&& ~~~0xFFF#64) true cr3).2) :
    ∃ pg, pg.frame = p.extractLsb' 12 40 ∧
      PointUpdate L cr3 hi v (some pg) s (mapPage L s v p iskernel writeable cr3) := by
  obtain ⟨f, g, s', hd, hw, -, hmap⟩ := mapPage_walk hs v p iskernel writeable hfit
  rw [hmap]
  generalize he : mapEntry p iskernel writeable = e
  have h0 : e.getLsbD 0 = true := he ▸ mapEntry_present p iskernel writeable
  have hf : e.extractLsb' 12 40 = p.extractLsb' 12 40 := he ▸ mapEntry_frame p iskernel writeable
  have hup : PointUpdate L cr3 hi v _ s
      (invalidatePage (s'.write (entryAddr L f (v.extractLsb' 12 9)) e) (v &&& ~~~0xFFF#64)) :=
    hw.pointUpdate hd e rfl rfl rfl rfl
  rw [decode, if_pos h0] at hup
  exact ⟨g (leafPage e (e.extractLsb' 12 40)), (descend_frame hd _).trans hf, hup⟩

/-- After `map_page` the tables that were there are where they were, and the path of `v`
    leads to a level-1 table. -/
theorem mapPage_descend (hs : AddrSpace L cr3 hi s) (v p : Addr) (iskernel writeable : Bool)
    (hfit : Fit hi s (getPageEntry L s (v &&& ~~~0xFFF#64) true cr3).2) :
    (∀ q x, descend (treeOf L s.mem) 4 (rootOf cr3) q = some x →
      descend (treeOf L (mapPage L s v p iskernel writeable cr3).mem) 4 (rootOf cr3) q = some x) ∧
    ∃ x, descend (treeOf L (mapPage L s v p iskernel writeable cr3).mem) 4 (rootOf cr3)
      (upperPath v) = some x := by
  obtain ⟨f, g, s', hd, hw, hg, hmap⟩ := mapPage_walk hs v p iskernel writeable hfit
  rw [hmap]
  have hset := setLast_store hd (mapEntry p iskernel writeable)
  refine ⟨?_, (f, g), hset.descend_path hw.space.unshared⟩
  intro q x hq
  exact (setLast_descend hset hw.space.unshared q).trans (hg.descend_eq hq)

/-! ## Translations -/

theorem toNat_frame_append (f : Frame) (x : BitVec 12) :
    ((f ++ x).setWidth 64).toNat = 4096 * f.toNat + x.toNat := by
  have h1 := f.isLt
  have h2 := x.isLt
  rw [BitVec.toNat_setWidth, BitVec.toNat_append, ← Nat.shiftLeft_add_eq_or_of_lt h2,
    Nat.shiftLeft_eq]
  omega

/-- The address of offset `w` in the frame of `p`. -/
theorem frame_append_offset {p : Addr} (hp : p.toNat < 2 ^ 52) (w : Addr) :
    (p.extractLsb' 12 40 ++ w.extractLsb' 0 12).setWidth 64 =
      (p &&& ~~~0xFFF#64) ||| (w &&& 0xFFF#64) := by
  have hmask : ∀ k : Fin 64, (0xFFF#64).getLsbD k = decide (k.val < 12) := by decide
  apply BitVec.eq_of_getLsbD_eq
  intro k hk
  rw [BitVec.getLsbD_setWidth, BitVec.getLsbD_append, BitVec.getLsbD_extractLsb',
    BitVec.getLsbD_extractLsb', BitVec.getLsbD_or, getLsbD_and_not_fff, BitVec.getLsbD_and,
    hmask ⟨k, hk⟩]
  by_cases h12 : k < 12
  · simp [h12, hk, show ¬ 12 ≤ k by omega]
  by_cases h52 : k < 52
  · simp [h12, hk, show 12 ≤ k by omega, show k - 12 < 40 by omega,
      show 12 + (k - 12) = k by omega]
  · have hbit : p.getLsbD k = false :=
      Nat.testBit_eq_false_of_lt
        (lt_of_lt_of_le hp (Nat.pow_le_pow_right (by norm_num) (by omega)))
    rw [hbit]
    simp [h12, hk, show ¬ k - 12 < 40 by omega]

theorem frameAddr_eq_phys (f : Frame) (v : Addr) :
    frameAddr f = (f ++ v.extractLsb' 0 12).setWidth 64 &&& ~~~0xFFF#64 := by
  apply BitVec.eq_of_getLsbD_eq
  intro k hk
  rw [getLsbD_and_not_fff, frameAddr, BitVec.getLsbD_setWidth, BitVec.getLsbD_setWidth,
    BitVec.getLsbD_append, BitVec.getLsbD_append]
  by_cases h12 : k < 12
  · simp [h12, show ¬ 12 ≤ k by omega]
  · simp [h12, show 12 ≤ k by omega]

/-- **Point updates.** `map_page` makes the page of `v` the page of `p`, `unmap_page`
    takes the page of `v` away and returns the frame it had, and neither changes the
    translation of an address in another page. -/
theorem mapPage_unmapPage_point (hs : AddrSpace L cr3 hi s) (hroom : s.HasRoom (3 * 4096) hi)
    (v : Addr) :
    (∀ (p : Addr) (iskernel writeable : Bool), p.toNat < 2 ^ 52 →
      (∀ w, pageOf w = pageOf v →
        (translate L (mapPage L s v p iskernel writeable cr3).mem cr3 w).map Translation.phys =
          some ((p &&& ~~~0xFFF#64) ||| (w &&& 0xFFF#64))) ∧
      ∀ w, pageOf w ≠ pageOf v →
        translate L (mapPage L s v p iskernel writeable cr3).mem cr3 w =
          translate L s.mem cr3 w) ∧
    (∀ w, pageOf w = pageOf v → translate L (unmapPage L s v cr3).2.mem cr3 w = none) ∧
    (∀ w, pageOf w ≠ pageOf v →
      translate L (unmapPage L s v cr3).2.mem cr3 w = translate L s.mem cr3 w) ∧
    ∀ t, translate L s.mem cr3 v = some t →
      (unmapPage L s v cr3).1 = t.phys &&& ~~~0xFFF#64 := by
  have hhi : hi < 2 ^ 64 := by
    have := hs.hi_le
    omega
  refine ⟨?_, ?_⟩
  · intro p iskernel writeable hp
    obtain ⟨pg, hpg, hup⟩ := mapPage_spec hs v p iskernel writeable
      (getPageEntry_fit hroom hhi _ true)
    refine ⟨?_, ?_⟩
    · intro w hw
      rw [translate, hup.page w hw, Option.map_some, Option.map_some, hpg,
        frame_append_offset hp]
    · intro w hw
      rw [translate, hup.others w hw, translate]
  · obtain ⟨hup, hret⟩ := unmapPage_spec hs v (unmapPage_fit hroom hhi v)
    refine ⟨?_, ?_, ?_⟩
    · intro w hw
      rw [translate, hup.page w hw]
      rfl
    · intro w hw
      rw [translate, hup.others w hw, translate]
    · intro t ht
      obtain ⟨pg, hpg, rfl⟩ := Option.map_eq_some_iff.mp ht
      rw [hret, hpg]
      exact frameAddr_eq_phys pg.frame v

/-- Inside one 1 GiB page: a page is moved, and a page is taken out. -/
theorem mapPage_unmapPage_point_gib :
    gibState.HasRoom (3 * 4096) 0x40100000 ∧
    (translate gibLayout (mapPage gibLayout gibState 0x40200000 0x5000 true true 0).mem 0 0x40200123).map
      Translation.phys = some 0x5123 ∧
    translate gibLayout (unmapPage gibLayout gibState 0x40200000 0).2.mem 0 0x40200123 = none ∧
    translate gibLayout (unmapPage gibLayout gibState 0x40200000 0).2.mem 0 0x40201000 =
      some ⟨0x201000, true, false, false⟩ ∧
    (unmapPage gibLayout gibState 0x40200000 0).1 = 0x200000 := by
  obtain ⟨hmap, hun, hother, hret⟩ :=
    mapPage_unmapPage_point gibState_addrSpace gibState_hasRoom 0x40200000
  refine ⟨gibState_hasRoom, ?_, ?_, ?_, ?_⟩
  · exact (hmap 0x5000 true true (by decide)).1 0x40200123 (by decide)
  · have hpage : pageOf 0x40200123 = pageOf 0x40200000 := by decide
    rw [hun 0x40200123 hpage]
  · rw [hother 0x40201000 (by decide)]
    decide
  · exact hret ⟨0x200000, true, false, false⟩ (by decide)

end Calls

end HorizonOS.Paging
