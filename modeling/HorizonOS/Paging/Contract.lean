import HorizonOS.I386.PageTables
import HorizonOS.Paging.Map

/-!
# The paging contract on both architectures

`asm/paging.h` asks `map_page` and `unmap_page` of both architectures. Three things a
caller of either may expect, and what the two implementations
(src/arch/x86_64/memory/paging.c and src/arch/i386/memory/paging.c) make of them:

* `mapPage_rights_iff`: a page has the rights it was mapped with. Tables above the last
  level are never made accessible to the user, so this holds for kernel pages only.
* `mapPage_residue_iff`: a new mapping does not depend on the entry it replaces. On i386
  the entry is edited, and bits 3 to 11, and for a kernel page bit 2, stay.
* `unmapPage_tells_iff`: the result of `unmap_page` tells whether there was a page. The
  address of frame 0 is also the code for no page.
-/

namespace HorizonOS.Paging

open HorizonOS.Lib HorizonOS.Lib.Radix HorizonOS.Mm

/-! ## Rights -/

/-- The rights that `map_page(…, iskernel, writeable, …)` is to give: a user page may be
    read by the user, and written if it is to be; a kernel page is not for the user. -/
def AsAsked (iskernel writeable user writable : Bool) : Prop :=
  if iskernel then user = false else user = true ∧ writable = writeable

/-- The states that `map_page` and `unmap_page` lead to from `s₀`, with room on the heap
    for the tables that each call may need. -/
inductive Reached (L : Layout) (cr3 : Word) (hi : ℕ) (s₀ : MmState) : MmState → Prop
  | start : Reached L cr3 hi s₀ s₀
  | map {s : MmState} (virtAddr physAddr : Addr) (iskernel writeable : Bool) :
    Reached L cr3 hi s₀ s → s.HasRoom (3 * 4096) hi →
      Reached L cr3 hi s₀ (mapPage L s virtAddr physAddr iskernel writeable cr3)
  | unmap {s : MmState} (addr : Addr) :
    Reached L cr3 hi s₀ s → s.HasRoom (3 * 4096) hi →
      Reached L cr3 hi s₀ (unmapPage L s addr cr3).2

/-- The page without the user's access. -/
def supervisor (pg : Page) : Page := { pg with user := false }

/-- Every entry above the last level is absent or a pointer that bars the user. -/
def SupervisorOnly (L : Layout) (cr3 : Word) (s : MmState) : Prop :=
  ∀ q t, Reaches (treeOf L s.mem) 4 (rootOf cr3) q t → ∀ l i, q.length + (l + 1) = 4 → 1 ≤ l →
    treeOf L s.mem l t i = .absent ∨ ∃ f, treeOf L s.mem l t i = .table f supervisor

section Rights

variable {L : Layout} {cr3 : Word} {hi : ℕ} {s s' s₀ : MmState} {v : Addr} {f : Frame}
  {g : Page → Page}

theorem restrict_pointer_zero (f : Frame) : restrict (pointer f 0) = supervisor := by
  funext pg
  rw [restrict_pointer]
  simp [supervisor]

/-- Every table but the top one is seen through such a pointer. -/
theorem SupervisorOnly.descend_eq (hsup : SupervisorOnly L cr3 s) {q : List (BitVec 9)}
    (hq : q ≠ []) (hlen : q.length ≤ 3)
    (hd : descend (treeOf L s.mem) 4 (rootOf cr3) q = some (f, g)) : g = supervisor := by
  -- from any table on the way, for what is left of the path
  suffices hgen : ∀ (q' q₀ : List (BitVec 9)) (t : Frame) (g₀ g : Page → Page) (m : ℕ),
      q₀.length + m = 4 → descend (treeOf L s.mem) 4 (rootOf cr3) q₀ = some (t, g₀) → q' ≠ [] →
      q₀.length + q'.length ≤ 3 → descend (treeOf L s.mem) m t q' = some (f, g) →
      g = supervisor from
    hgen q [] (rootOf cr3) id g 4 rfl descend_nil hq (by simpa using hlen) hd
  intro q'
  induction q' with
  | nil => intro q₀ t g₀ g m _ _ hne; exact absurd rfl hne
  | cons j q' ih =>
    intro q₀ t g₀ g m hm h₀ _ hle hd
    rw [List.length_cons] at hle
    obtain ⟨m, rfl⟩ : ∃ k, m = k + 1 := ⟨m - 1, by omega⟩
    obtain ⟨r, gr, gx, ht, hx, rfl⟩ := exists_of_descend_cons hd
    have hgr : gr = supervisor := by
      rcases hsup q₀ t ⟨g₀, h₀⟩ m j hm (by omega) with habs | ⟨r', htab⟩
      · rw [habs] at ht
        cases ht
      · rw [htab] at ht
        injection ht with _ hg
        exact hg.symm
    rw [hgr]
    cases q' with
    | nil =>
      simp only [descend_nil, Option.some.injEq, Prod.mk.injEq] at hx
      rw [← hx.2]
      rfl
    | cons j' q' =>
      have hsnoc : descend (treeOf L s.mem) 4 (rootOf cr3) (q₀ ++ [j]) = some (r, g₀ ∘ gr) := by
        rw [← hm] at h₀ ⊢
        exact descend_snoc h₀ ht
      rw [ih (q₀ ++ [j]) r _ gx m (by rw [List.length_append, List.length_singleton]; omega) hsnoc
        (by simp) (by rw [List.length_append, List.length_singleton]; omega) hx]
      rfl

/-- A table that replaces an absent entry bars the user. -/
theorem SupervisorOnly.attaches (hsup : SupervisorOnly L cr3 s) (h : Attaches L cr3 s s') :
    SupervisorOnly L cr3 s' := by
  obtain ⟨k, p, n, t₀, i, hp, x, hk, hun, ha, hcase⟩ := h
  have hpath : Reaches (treeOf L s.mem) 4 (rootOf cr3) p n := ⟨hp, by rw [← hk]; exact ha.path⟩
  have hk1 : 1 ≤ k := by
    by_contra hlt
    obtain rfl : k = 0 := by omega
    exact decode_last_not_table _ (show (treeOf L s'.mem 0 n i).IsTable by rw [ha.new]; trivial)
  -- the entry that was replaced can only have been absent
  have habs : treeOf L s.mem k n i = .absent := by
    rcases hsup p n hpath k i hk hk1 with habs | ⟨r, htab⟩
    · exact habs
    · exact absurd (by rw [htab]; trivial) ha.old
  obtain ⟨rfl, hinner⟩ := hcase habs
  intro q t hq l j hl hl1
  obtain ⟨gt, hq⟩ := hq
  rw [← hk] at hq hun
  rw [attach_descend ha hun] at hq
  split_ifs at hq with hqp
  · obtain ⟨rfl, -⟩ : t₀ = t ∧ _ := by simpa using hq
    exact Or.inl (hinner l j)
  · have hfresh : t ≠ t₀ := ha.updated.fresh q t ⟨gt, hq⟩
    by_cases hentry : t = n ∧ j = i
    · obtain ⟨rfl, rfl⟩ := hentry
      obtain rfl := hun q p t ⟨gt, hq⟩ ⟨hp, ha.path⟩
      obtain rfl : l = k := by omega
      exact Or.inr ⟨t₀, by rw [ha.new, restrict_pointer_zero]⟩
    · rw [ha.updated.same l t j hfresh (by tauto)]
      rw [hk] at hq
      exact hsup q t ⟨gt, hq⟩ l j hl hl1

theorem SupervisorOnly.grown (hsup : SupervisorOnly L cr3 s) (h : Grown L cr3 s s') :
    SupervisorOnly L cr3 s' := by
  induction h with
  | refl => exact hsup
  | tail _ hstep ih => exact ih.attaches hstep

/-- Entries of the last level do not matter. -/
theorem SupervisorOnly.writeLast (hsup : SupervisorOnly L cr3 s)
    (hun : Unshared (treeOf L s.mem) 4 (rootOf cr3))
    (hd : descend (treeOf L s.mem) 4 (rootOf cr3) (upperPath v) = some (f, g)) (e : Word)
    (hmem : s'.mem = s.mem.store (entryAddr L f (v.extractLsb' 12 9)) e) :
    SupervisorOnly L cr3 s' := by
  have hset := setLast_store hd e
  rw [← hmem] at hset
  intro q t hq l j hl hl1
  obtain ⟨gt, hq⟩ := hq
  have hq : descend (treeOf L s.mem) 4 (rootOf cr3) q = some (t, gt) :=
    (setLast_descend hset hun q).symm.trans hq
  have hne : t ≠ f ∨ j ≠ v.extractLsb' 12 9 := by
    left
    rintro rfl
    obtain rfl := hun q (upperPath v) t ⟨gt, hq⟩ ⟨g, hd⟩
    have hlen : (upperPath v).length = 3 := rfl
    omega
  rw [hset.updated.same l t j (Set.notMem_empty _) hne]
  exact hsup q t ⟨gt, hq⟩ l j hl hl1

/-- What `map_page` does where every upper table bars the user: so does every table
    afterwards, and the page has the rights that were asked for, but not the user's. -/
theorem mapPage_supervisor (hs : AddrSpace L cr3 hi s) (hsup : SupervisorOnly L cr3 s)
    (hroom : s.HasRoom (3 * 4096) hi) (v p : Addr) (iskernel writeable : Bool) :
    AddrSpace L cr3 hi (mapPage L s v p iskernel writeable cr3) ∧
    SupervisorOnly L cr3 (mapPage L s v p iskernel writeable cr3) ∧
    ∃ pg, lookupPage L (mapPage L s v p iskernel writeable cr3).mem cr3 v = some pg ∧
      pg.user = false ∧ pg.writable = writeable := by
  have hhi : hi < 2 ^ 64 := by
    have := hs.hi_le
    omega
  obtain ⟨f, g, s', hd, hw, hg, hmap⟩ := mapPage_walk hs v p iskernel writeable
    (getPageEntry_fit hroom hhi (v &&& ~~~0xFFF#64) true)
  rw [hmap]
  have hflags := mapEntry_flags p iskernel writeable
  have h0 := mapEntry_present p iskernel writeable
  generalize mapEntry p iskernel writeable = e at hflags h0
  have hup : PointUpdate L cr3 hi v _ s
      (invalidatePage (s'.write (entryAddr L f (v.extractLsb' 12 9)) e) (v &&& ~~~0xFFF#64)) :=
    hw.pointUpdate hd e rfl rfl rfl rfl
  rw [decode, if_pos h0] at hup
  have hsup' := hsup.grown hg
  obtain rfl := hsup'.descend_eq (by simp [upperPath]) (by simp [upperPath]) hd
  exact ⟨hup.space, hsup'.writeLast hw.space.unshared hd e rfl, _, hup.page v rfl, rfl, hflags.1⟩

theorem unmapPage_supervisor (hs : AddrSpace L cr3 hi s) (hsup : SupervisorOnly L cr3 s)
    (hroom : s.HasRoom (3 * 4096) hi) (v : Addr) :
    AddrSpace L cr3 hi (unmapPage L s v cr3).2 ∧ SupervisorOnly L cr3 (unmapPage L s v cr3).2 := by
  have hhi : hi < 2 ^ 64 := by
    have := hs.hi_le
    omega
  simp only [unmapPage]
  rcases getPageEntry_grown hs _ false (getPageEntry_fit hroom hhi (v &&& ~~~0xFFF#64) false) with
    ⟨-, -, hr⟩ | ⟨f, g, s', hr, hd, hw, hg⟩
  · rw [hr]
    exact ⟨hs, hsup⟩
  have hsup' := hsup.grown hg
  rw [upperPath_align] at hd
  rw [extract_and_not_fff v (le_refl 12)] at hr
  rw [hr]
  have hwrite : ∀ t : MmState, t.mem = s'.mem.store (entryAddr L f (v.extractLsb' 12 9)) 0 →
      t.placementAddress = s'.placementAddress → AddrSpace L cr3 hi t ∧ SupervisorOnly L cr3 t :=
    fun t hmem hpl => ⟨(hw.space.writeLast hd 0 hmem hpl).1,
      hsup'.writeLast hw.space.unshared hd 0 hmem⟩
  simp only
  split_ifs
  · exact ⟨hw.space, hsup'⟩
  · exact hwrite _ rfl rfl
  · exact hwrite _ rfl rfl

/-- An empty top-level table has nothing below it. -/
theorem supervisorOnly_of_empty
    (hempty : ∀ i, (s.mem.load (entryAddr L (rootOf cr3) i)).getLsbD 0 = false) :
    SupervisorOnly L cr3 s := by
  have habs : ∀ l i, treeOf L s.mem l (rootOf cr3) i = .absent := fun l i =>
    (decode_eq_absent_iff l _).mpr (hempty i)
  intro q t hq l i _ _
  obtain ⟨g, hq⟩ := hq
  cases q with
  | nil =>
    simp only [descend_nil, Option.some.injEq, Prod.mk.injEq] at hq
    rw [← hq.1]
    exact Or.inl (habs l i)
  | cons j q =>
    obtain ⟨r, gr, gx, ht, -⟩ := exists_of_descend_cons hq
    rw [habs] at ht
    cases ht

theorem Reached.supervisor (hs₀ : AddrSpace L cr3 hi s₀)
    (hempty : ∀ i, (s₀.mem.load (entryAddr L (rootOf cr3) i)).getLsbD 0 = false)
    (h : Reached L cr3 hi s₀ s) : AddrSpace L cr3 hi s ∧ SupervisorOnly L cr3 s := by
  induction h with
  | start => exact ⟨hs₀, supervisorOnly_of_empty hempty⟩
  | map v p iskernel writeable _ hroom ih =>
    obtain ⟨hs, hsup, -⟩ := mapPage_supervisor ih.1 ih.2 hroom v p iskernel writeable
    exact ⟨hs, hsup⟩
  | unmap v _ hroom ih => exact unmapPage_supervisor ih.1 ih.2 hroom v

end Rights

end HorizonOS.Paging

namespace HorizonOS.I386

/-- The machines that `map_page` and `unmap_page` lead to from `m₀`. -/
inductive Reached (cr3 : BitVec 32) (m₀ : Machine) : Machine → Prop
  | start : Reached cr3 m₀ m₀
  | map {m : Machine} (virtAddr physAddr : BitVec 32) (iskernel writeable : Bool) :
    Reached cr3 m₀ m → Reached cr3 m₀ (mapPageTables m virtAddr physAddr iskernel writeable cr3)
  | unmap {m : Machine} (virtAddr : BitVec 32) :
    Reached cr3 m₀ m → Reached cr3 m₀ (unmapPage m virtAddr cr3).2

/-- Every table of the directory is writable and bars the user. -/
def SupervisorOnly (m : Machine) (cr3 : BitVec 32) : Prop :=
  ∀ i, m.dirs (cr3 &&& pdePageTableBaseMask) i &&& pdePresent = 0 ∨
    (m.dirs (cr3 &&& pdePageTableBaseMask) i).getLsbD 1 = true ∧
      (m.dirs (cr3 &&& pdePageTableBaseMask) i).getLsbD 2 = false

section Rights

variable {m m₀ : Machine} {cr3 : BitVec 32}

theorem SupervisorOnly.withTable (h : SupervisorOnly m cr3) (v : BitVec 32) :
    SupervisorOnly (withTable m cr3 v) cr3 := by
  rw [I386.withTable]
  split_ifs
  · intro i
    rw [addTable_dirs]
    split_ifs
    · exact Or.inr (newPde_flags _ (kmallocA_aligned m 4096)).2
    · exact h i
  · exact h

theorem SupervisorOnly.mapPageTables (h : SupervisorOnly m cr3) (v p : BitVec 32)
    (iskernel writeable : Bool) :
    SupervisorOnly (mapPageTables m v p iskernel writeable cr3) cr3 := by
  rw [mapPageTables_eq]
  exact h.withTable (v &&& 0xFFFFF000)

theorem SupervisorOnly.unmapPage (h : SupervisorOnly m cr3) (v : BitVec 32) :
    SupervisorOnly (unmapPage m v cr3).2 cr3 := by
  rw [unmapPage_eq]
  cases lookupPage m cr3 v <;> exact h

theorem Reached.supervisor
    (hempty : ∀ i, m₀.dirs (cr3 &&& pdePageTableBaseMask) i &&& pdePresent = 0)
    (h : Reached cr3 m₀ m) : SupervisorOnly m cr3 := by
  induction h with
  | start => exact fun i => Or.inl (hempty i)
  | map v p iskernel writeable _ ih => exact ih.mapPageTables v p iskernel writeable
  | unmap v _ ih => exact ih.unmapPage v

theorem mapPageTables_supervisor (h : SupervisorOnly m cr3) (v p : BitVec 32)
    (iskernel writeable : Bool) :
    ∃ pg, lookupPage (mapPageTables m v p iskernel writeable cr3) cr3 v = some pg ∧
      pg.user = false ∧ pg.writable = writeable := by
  obtain ⟨pte, pde, hpde, hlook⟩ := lookupPage_mapPageTables m v p cr3 iskernel writeable
  have hpres := withTable_present m cr3 (v &&& 0xFFFFF000)
  rw [pde_align] at hpres
  have hflags : pde.getLsbD 1 = true ∧ pde.getLsbD 2 = false := by
    rcases (h.withTable (v &&& 0xFFFFF000)) (v >>> 22).toNat with habs | hflags
    · exact absurd habs hpres
    · rw [hpde]
      exact hflags
  exact ⟨_, hlook, by simp only [hflags, Bool.false_and], by simp only [hflags, Bool.true_and]⟩

end Rights

end HorizonOS.I386

namespace HorizonOS.Paging

open HorizonOS.Lib HorizonOS.Lib.Radix HorizonOS.Mm

/-- Where a page never has the user's access, only kernel pages are as asked. -/
theorem asAsked_iff {iskernel writeable user writable : Bool} (huser : user = false) :
    AsAsked iskernel writeable user writable ↔ iskernel = true := by
  subst huser
  cases iskernel <;> simp [AsAsked]

/-- **Rights.** From an empty top-level table, whatever `map_page` and `unmap_page` have
    done before, a page has the rights it is mapped with exactly if it is mapped for the
    kernel, on both architectures. -/
theorem mapPage_rights_iff {L : Layout} {cr3 : Word} {hi : ℕ} {s₀ s : MmState}
    (hs₀ : AddrSpace L cr3 hi s₀)
    (hempty : ∀ i, (s₀.mem.load (entryAddr L (rootOf cr3) i)).getLsbD 0 = false)
    (hreach : Reached L cr3 hi s₀ s) (hroom : s.HasRoom (3 * 4096) hi) (v p : Addr)
    {m₀ m : I386.Machine} {cr3' : BitVec 32}
    (hempty' : ∀ i, m₀.dirs (cr3' &&& I386.pdePageTableBaseMask) i &&& I386.pdePresent = 0)
    (hreach' : I386.Reached cr3' m₀ m) (v' p' : BitVec 32) (iskernel writeable : Bool) :
    ((∃ pg, lookupPage L (mapPage L s v p iskernel writeable cr3).mem cr3 v = some pg ∧
      AsAsked iskernel writeable pg.user pg.writable) ↔ iskernel = true) ∧
    ((∃ pg, I386.lookupPage (I386.mapPageTables m v' p' iskernel writeable cr3') cr3' v' = some pg ∧
      AsAsked iskernel writeable pg.user pg.writable) ↔ iskernel = true) := by
  obtain ⟨hs, hsup⟩ := hreach.supervisor hs₀ hempty
  obtain ⟨-, -, pg, hpg, huser, -⟩ := mapPage_supervisor hs hsup hroom v p iskernel writeable
  obtain ⟨pg', hpg', huser', -⟩ :=
    I386.mapPageTables_supervisor (hreach'.supervisor hempty') v' p' iskernel writeable
  refine ⟨?_, ?_⟩
  · simp only [hpg, Option.some.injEq, exists_eq_left', asAsked_iff huser]
  · simp only [hpg', Option.some.injEq, exists_eq_left', asAsked_iff huser']

/-- The first page mapped, for the kernel. -/
theorem mapPage_rights_iff_first :
    AsAsked true true false true ∧
    (∃ pg, lookupPage gibLayout (mapPage gibLayout emptyState 0x1000 0x5000 true true 0).mem 0 0x1000 =
      some pg ∧ AsAsked true true pg.user pg.writable) ∧
    ∃ pg, I386.lookupPage (I386.mapPageTables (I386.Machine.cleared 0x200000) 0x400000 0x5000 true true
      0x1000) 0x1000 0x400000 = some pg ∧ AsAsked true true pg.user pg.writable := by
  have hempty : ∀ i, (I386.Machine.cleared 0x200000).dirs (0x1000 &&& I386.pdePageTableBaseMask) i &&&
      I386.pdePresent = 0 := fun _ => BitVec.zero_and
  have h := mapPage_rights_iff emptyState_addrSpace emptyState_absent .start emptyState_hasRoom
    0x1000 0x5000 hempty .start 0x400000 0x5000 true true
  exact ⟨rfl, h.1.mpr rfl, h.2.mpr rfl⟩

/-- A page mapped for the user that the user cannot read, on either architecture. -/
theorem mapPage_user_barred :
    (∃ pg, lookupPage gibLayout (mapPage gibLayout emptyState 0x1000 0x5000 false true 0).mem 0
      0x1000 = some pg ∧ pg.user = false ∧ ¬ AsAsked false true pg.user pg.writable) ∧
    ∃ m, I386.mapPage (I386.Machine.cleared 0x200000) 0x400000 0x5000 false true 0x1000 = .ok m ∧
      I386.lookupPage m 0x1000 0x400000 = some ⟨0x5000, true, false⟩ ∧
      ¬ AsAsked false true false true := by
  obtain ⟨-, -, pg, hpg, huser, -⟩ := mapPage_supervisor emptyState_addrSpace
    (supervisorOnly_of_empty emptyState_absent) emptyState_hasRoom 0x1000 0x5000 false true
  refine ⟨⟨pg, hpg, huser, by rw [asAsked_iff huser]; decide⟩, ?_⟩
  refine ⟨_, rfl, by decide, by rw [asAsked_iff rfl]; decide⟩

/-! ## Residue -/

/-- The bits of an old entry that `map_page` keeps on i386. -/
def keptMask (iskernel : Bool) : BitVec 32 := if iskernel then 0xFFC else 0xFF8

theorem mappedPte_eq_iff (x y p : BitVec 32) (iskernel writeable : Bool) :
    I386.mappedPte x p iskernel writeable = I386.mappedPte y p iskernel writeable ↔
      x &&& keptMask iskernel = y &&& keptMask iskernel := by
  have hmask : ∀ k < 32, (keptMask iskernel).getLsbD k =
      decide (3 ≤ k ∧ k < 12 ∨ iskernel = true ∧ k = 2) := by
    cases iskernel <;> decide
  have hbits := fun z k (hk : k < 32) => I386.getLsbD_mappedPte z p iskernel writeable hk
  constructor
  · intro h
    apply BitVec.eq_of_getLsbD_eq
    intro k hk
    have hk' := congrArg (BitVec.getLsbD · k) h
    simp only [hbits _ k hk] at hk'
    rw [BitVec.getLsbD_and, BitVec.getLsbD_and, hmask k hk]
    by_cases h3 : 3 ≤ k ∧ k < 12
    · rw [if_neg (by omega), if_neg (by omega), if_neg (by omega), if_neg (by omega),
        if_neg (by omega), if_neg (by omega), if_neg (by omega), if_neg (by omega)] at hk'
      rw [hk']
    · by_cases h2 : iskernel = true ∧ k = 2
      · obtain ⟨rfl, rfl⟩ := h2
        simpa using hk'
      · simp [h3, h2]
  · intro h
    apply BitVec.eq_of_getLsbD_eq
    intro k hk
    have hk' := congrArg (BitVec.getLsbD · k) h
    simp only [BitVec.getLsbD_and, hmask k hk] at hk'
    rw [hbits x k hk, hbits y k hk]
    split_ifs with h12 h0 h1 h2
    · rfl
    · rfl
    · rfl
    · subst h2
      cases iskernel <;> simp_all
    · simpa [show 3 ≤ k ∧ k < 12 by omega] using hk'

/-- **Residue.** Two states that differ only in the level-1 entry of `v` are equal after
    `map_page` on x86_64; on i386 they are exactly if the old entries agree in the bits
    that are kept. -/
theorem mapPage_residue_iff {L : Layout} {cr3 : Word} {s : MmState} {v : Addr} {old : Word}
    {f : Frame} {g g' : Page → Page}
    (hd : descend (treeOf L s.mem) 4 (rootOf cr3) (upperPath v) = some (f, g))
    (hd' : descend (treeOf L (s.mem.store (entryAddr L f (v.extractLsb' 12 9)) old)) 4 (rootOf cr3)
      (upperPath v) = some (f, g'))
    (p : Addr) {m : I386.Machine} {cr3' v' : BitVec 32}
    (hpde : m.pde cr3' v' &&& I386.pdePresent ≠ 0) (old' p' : BitVec 32)
    (iskernel writeable : Bool) :
    (mapPage L { s with mem := s.mem.store (entryAddr L f (v.extractLsb' 12 9)) old } v p iskernel
        writeable cr3 = mapPage L s v p iskernel writeable cr3 ∧
      (mapPage L s v p iskernel writeable cr3).mem.load (entryAddr L f (v.extractLsb' 12 9)) =
        mapEntry p iskernel writeable) ∧
    (I386.mapPageTables (m.setPte (m.ptePtr cr3' v') old') v' p' iskernel writeable cr3' =
        I386.mapPageTables m v' p' iskernel writeable cr3' ↔
      old' &&& keptMask iskernel = m.pte (m.ptePtr cr3' v') &&& keptMask iskernel) := by
  refine ⟨?_, ?_⟩
  · have hr := getPageEntry_of_descend (v := v &&& ~~~0xFFF#64) true
      (by rw [upperPath_align]; exact hd)
    have hr' := getPageEntry_of_descend
      (s := { s with mem := s.mem.store (entryAddr L f (v.extractLsb' 12 9)) old })
      (v := v &&& ~~~0xFFF#64) true (by rw [upperPath_align]; exact hd')
    rw [extract_and_not_fff v (le_refl 12)] at hr hr'
    rw [mapPage_eq hr, mapPage_eq hr']
    refine ⟨?_, ?_⟩
    · simp only [MmState.write, invalidatePage, Mem.store_store]
    · simp only [MmState.write, invalidatePage, Mem.load_store_self]
  · have hwith : ∀ n : I386.Machine, n.pde cr3' v' = m.pde cr3' v' →
        I386.withTable n cr3' (v' &&& 0xFFFFF000) = n := by
      intro n hn
      rw [I386.withTable, I386.pde_align, hn, if_neg hpde]
    rw [I386.mapPageTables_eq, I386.mapPageTables_eq, hwith m rfl,
      hwith (m.setPte (m.ptePtr cr3' v') old') rfl, I386.setPte_ptePtr, I386.setPte_pte_self,
      I386.setPte_setPte, ← mappedPte_eq_iff _ _ (p' &&& 0xFFFFF000) iskernel writeable]
    constructor
    · intro h
      have hpte := congrArg (fun n => I386.Machine.pte n (m.ptePtr cr3' v')) h
      simpa only [I386.setPte_pte_self] using hpte
    · intro h
      rw [h]

/-- A page mapped for the user is mapped for the kernel, with or without its entry
    cleared before. -/
theorem mapPage_residue_iff_user :
    let m := I386.mapPageTables (I386.Machine.cleared 0x200000) 0x400000 0x5000 false true 0x1000
    (∃ s f, s = mapPage gibLayout emptyState 0x1000#64 0x5000 false true 0 ∧
      mapPage gibLayout
        { s with mem := s.mem.store (entryAddr gibLayout f (BitVec.extractLsb' 12 9 0x1000#64)) 0 }
        0x1000#64 0x6000 true true 0 = mapPage gibLayout s 0x1000#64 0x6000 true true 0) ∧
    I386.mapPageTables (m.setPte (m.ptePtr 0x1000 0x400000) 0) 0x400000 0x6000 true true 0x1000 ≠
      I386.mapPageTables m 0x400000 0x6000 true true 0x1000 := by
  intro m
  obtain ⟨hspace, -⟩ := mapPage_supervisor emptyState_addrSpace
    (supervisorOnly_of_empty emptyState_absent) emptyState_hasRoom 0x1000#64 0x5000 false true
  obtain ⟨-, ⟨f, g⟩, hd⟩ := mapPage_descend emptyState_addrSpace 0x1000#64 0x5000 false true
    (getPageEntry_fit emptyState_hasRoom (by norm_num) _ true)
  generalize mapPage gibLayout emptyState 0x1000#64 0x5000 false true 0 = s at hspace hd ⊢
  have hd' := (setLast_store hd 0).descend_path hspace.unshared
  have h := mapPage_residue_iff hd hd' 0x6000 (m := m)
    (show m.pde 0x1000 0x400000 &&& I386.pdePresent ≠ 0 by decide) 0 0x6000 true true
  exact ⟨⟨s, f, rfl, h.1.1⟩, fun heq => absurd (h.2.mp heq) (by decide)⟩

/-- On i386 a page that is mapped for the user and then for the kernel keeps
    `PTE_USER_SUPERVISOR`; from a cleared entry it does not have it. -/
theorem mapPage_keeps_user :
    ∃ m n n', I386.mapPage (I386.Machine.cleared 0x200000) 0x400000 0x5000 false true 0x1000 = .ok m ∧
      I386.mapPage m 0x400000 0x6000 true true 0x1000 = .ok n ∧
      I386.mapPage (m.setPte (m.ptePtr 0x1000 0x400000) 0) 0x400000 0x6000 true true 0x1000 =
        .ok n' ∧
      n.pte (n.ptePtr 0x1000 0x400000) = 0x6007 ∧ n'.pte (n'.ptePtr 0x1000 0x400000) = 0x6003 :=
  ⟨_, _, _, rfl, rfl, rfl, by decide, by decide⟩

/-! ## The result of `unmap_page` -/

/-- What the contract says of a result of `unmap_page`: it is 0 exactly if there was no
    page for `v`, and then no translation changed; otherwise it is the frame. -/
def Tells {α ρ π : Type} [Zero ρ] (ret : ρ) (frame : π → ρ) (before after : α → Option π) (v : α) :
    Prop :=
  (ret = 0 ↔ before v = none) ∧ (before v = none → ∀ w, after w = before w) ∧
    ∀ pg, before v = some pg → ret = frame pg

/-- A result that is the frame, or 0 without one, tells unless the frame is at 0. -/
theorem tells_iff {α ρ π : Type} [Zero ρ] {ret : ρ} {frame : π → ρ} {before after : α → Option π}
    {v : α} (hnone : before v = none → ret = 0) (hsome : ∀ pg, before v = some pg → ret = frame pg)
    (hafter : before v = none → ∀ w, after w = before w) :
    Tells ret frame before after v ↔ ∀ pg, before v = some pg → frame pg ≠ 0 := by
  cases hv : before v with
  | none => simp [Tells, hv, hnone hv, hafter hv]
  | some pg => simp [Tells, hv, hsome pg hv]

/-- **The result of `unmap_page`** tells whether there was a page exactly if there was
    none with frame 0, on both architectures. A page that was just mapped is reported
    exactly if its frame is not 0. -/
theorem unmapPage_tells_iff {L : Layout} {cr3 : Word} {hi : ℕ} {s : MmState}
    (hs : AddrSpace L cr3 hi s) (hroom : s.HasRoom (3 * 4096) hi) (v p : Addr) (m : I386.Machine)
    (cr3' v' p' : BitVec 32) (iskernel writeable : Bool) :
    (Tells (unmapPage L s v cr3).1 (fun pg => frameAddr pg.frame) (lookupPage L s.mem cr3)
        (lookupPage L (unmapPage L s v cr3).2.mem cr3) v ↔
      ∀ pg, lookupPage L s.mem cr3 v = some pg → frameAddr pg.frame ≠ 0) ∧
    ((unmapPage L (mapPage L s v p iskernel writeable cr3) v cr3).1 ≠ 0 ↔
      frameAddr (p.extractLsb' 12 40) ≠ 0) ∧
    (Tells (I386.unmapPage m v' cr3').1 I386.Page.frame (I386.lookupPage m cr3')
        (I386.lookupPage (I386.unmapPage m v' cr3').2 cr3') v' ↔
      ∀ pg, I386.lookupPage m cr3' v' = some pg → pg.frame ≠ 0) ∧
    ((I386.unmapPage (I386.mapPageTables m v' p' iskernel writeable cr3') v' cr3').1 ≠ 0 ↔
      p' &&& I386.pteFrameMask ≠ 0) := by
  have hhi : hi < 2 ^ 64 := by
    have := hs.hi_le
    omega
  refine ⟨?_, ?_, ?_, ?_⟩
  · obtain ⟨hup, hret⟩ := unmapPage_spec hs v (unmapPage_fit hroom hhi v)
    refine tells_iff (fun hv => by rw [hret, hv]) (fun pg hv => by rw [hret, hv]) ?_
    intro hnone w
    by_cases hw : pageOf w = pageOf v
    · rw [hup.page w hw, lookupPage_congr hw, hnone]
    · exact hup.others w hw
  · have hwalk : Fit hi s (getPageEntry L s (v &&& ~~~0xFFF#64) true cr3).2 :=
      getPageEntry_fit hroom hhi _ true
    obtain ⟨pg, hpg, hup⟩ := mapPage_spec hs v p iskernel writeable hwalk
    obtain ⟨-, x, hd⟩ := mapPage_descend hs v p iskernel writeable hwalk
    obtain ⟨-, hret⟩ := unmapPage_spec hup.space v (unmapPage_fit_of_descend hd)
    rw [hret, hup.page v rfl, ← hpg]
  · rw [I386.unmapPage_eq]
    exact tells_iff (fun hv => by rw [hv]) (fun pg hv => by rw [hv]) fun hv w => by rw [hv]
  · obtain ⟨pte, pde, -, hlook⟩ :=
      I386.lookupPage_mapPageTables m v' p' cr3' iskernel writeable
    rw [I386.unmapPage_eq, hlook]

/-- A page inside the 1 GiB page, and one on i386, mapped to frames other than 0. -/
theorem unmapPage_tells_iff_gib :
    (unmapPage gibLayout (mapPage gibLayout gibState 0x40200000 0x5000 true true 0) 0x40200000 0).1 ≠
      0 ∧
    (I386.unmapPage (I386.mapPageTables (I386.Machine.cleared 0x200000) 0x400000 0x5000 true true 0x1000)
      0x400000 0x1000).1 ≠ 0 := by
  have h := unmapPage_tells_iff gibState_addrSpace gibState_hasRoom 0x40200000 0x5000
    (I386.Machine.cleared 0x200000) 0x1000 0x400000 0x5000 true true
  exact ⟨h.2.1.mpr (by decide), h.2.2.2.mpr (by decide)⟩

/-- The first page of the direct map, and a page mapped to frame 0 on i386: it was there,
    `unmap_page` takes it away and returns 0. -/
theorem unmapPage_frame_zero :
    (lookupPage gibLayout gibState.mem 0 0x40000000 = some ⟨0, true, false, false⟩ ∧
      (unmapPage gibLayout gibState 0x40000000 0).1 = 0 ∧
      lookupPage gibLayout (unmapPage gibLayout gibState 0x40000000 0).2.mem 0 0x40000000 = none) ∧
    ∃ m m', I386.mapPage (I386.Machine.cleared 0x200000) 0x400000 0 true true 0x1000 = .ok m ∧
      I386.lookupPage m 0x1000 0x400000 = some ⟨0, true, false⟩ ∧
      I386.unmapPage m 0x400000 0x1000 = (0, m') ∧ I386.lookupPage m' 0x1000 0x400000 = none := by
  have hpage : lookupPage gibLayout gibState.mem 0 0x40000000 = some ⟨0, true, false, false⟩ := by
    decide
  obtain ⟨hup, hret⟩ := unmapPage_spec gibState_addrSpace 0x40000000
    (unmapPage_fit gibState_hasRoom (by norm_num) 0x40000000)
  rw [hpage] at hret
  refine ⟨⟨hpage, hret, ?_⟩, _, _, rfl, by decide, rfl, by decide⟩
  rw [hup.page 0x40000000 rfl]

end HorizonOS.Paging
