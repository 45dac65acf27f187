/-
**The map of the kernel.**

The regions that `mem_init` and `mem_init_mp` map one after the other lie in different pages of one
directory, so none of the calls disturbs what an earlier one has mapped. The stacks of the CPUs are
next to each other with gaps between them that no call touches.

Main definitions:

* `Jos.stackVa`, `Jos.gapPage` — the stack of a CPU, and the guard gap below it;
* `Jos.bootPages`, `Jos.bootValue` — the pages of all regions, and the entries they get;
* `Jos.KernelMap` — what the directory of the kernel has in the end.

Main results:

* `Jos.memInitMp_maps` — the stacks;
* `Jos.memInitRegions_maps` — all regions;
* `Jos.staticMaps_exact` — **the entries, the reference counts and the page tables after one region
  and after those of `mem_init`**.
-/

import JosKernel.AddressSpace
import JosKernel.BootMap
import JosKernel.SortedAreas
import JosKernel.Walks

set_option relaxedAutoImplicit false
set_option autoImplicit false

namespace Jos

open LinkedList Outcome

/-! ### The regions -/

/-- The start of the stack of CPU `i`. -/
def stackVa (i : ℕ) : BitVec 32 := kStackTop - BitVec.ofNat 32 i * (kStkGap + kStkSize) - kStkSize

/-- The `k`-th page of the guard gap below the stack of CPU `i`. -/
def gapPage (i k : ℕ) : ℕ := vpn (stackVa i - kStkGap) + k

/-- The pages of the first `n` stacks. -/
def stackPages (n : ℕ) : Finset ℕ :=
  (Finset.range n).biUnion fun i => regionPages (stackVa i) kStkSize

/-- The size of the region at `UPAGES`. -/
def pagesSize (npages : ℕ) : BitVec 32 :=
  roundUp (BitVec.ofNat 32 (pageInfoSize * npages)) (BitVec.ofNat 32 pgSize)

/-- The size of the region at `UENVS`. -/
def envsSize : BitVec 32 := BitVec.ofNat 32 (envSize * nEnv)

/-- **The pages that `mem_init` maps.** -/
def bootPages (npages : ℕ) : Finset ℕ :=
  regionPages uPages (pagesSize npages) ∪ (regionPages uEnvs envsSize ∪
    (regionPages kernBase (0 - kernBase) ∪ stackPages nCpu))

/-- **The entries that they get.** -/
def bootValue (pages envs percpuKstacks : BitVec 32) (q : ℕ) : BitVec 32 :=
  if vpn kernBase ≤ q then page2pa (q - vpn kernBase) ||| (pteW ||| pteP)
  else if vpn kernBase - 1024 ≤ q then
    -- the CPU is the number of stacks with their gaps above the page
    page2pa (pgnum (percpuKstacks + BitVec.ofNat 32 ((vpn kernBase - 1 - q) / 16) * kStkSize -
      kernBase) + (7 - (vpn kernBase - 1 - q) % 16)) |||
      (pteW ||| pteP)
  else if vpn uPages ≤ q then page2pa (pgnum (pages - kernBase) + (q - vpn uPages)) |||
    (pteU ||| pteP)
  else page2pa (pgnum (envs - kernBase) + (q - vpn uEnvs)) ||| (pteU ||| pteP)

theorem vpn_stackVa : ∀ i < nCpu, vpn (stackVa i) = 983032 - 16 * i := by decide

theorem vpn_gap : ∀ i < nCpu, vpn (stackVa i - kStkGap) = 983024 - 16 * i := by decide

theorem vpn_kernBase : vpn kernBase = 983040 := by decide

theorem vpn_uPages : vpn uPages = 978944 := by decide

theorem vpn_uEnvs : vpn uEnvs = 977920 := by decide

theorem kStkSize_pages : kStkSize.toNat / pgSize = 8 := by decide

theorem envsSize_pages : envsSize.toNat / pgSize = 977 := by decide

theorem kernSize_pages : (0 - kernBase).toNat / pgSize = 65536 := by decide

theorem i386DetectMemory_le (baseMem extMem : BitVec 16) :
    i386DetectMemory baseMem extMem ≤ 16639 := by
  have hb := baseMem.isLt
  have he := extMem.isLt
  unfold i386DetectMemory
  dsimp only [pgSize]
  split
  · omega
  · omega

/-- The array `pages` fits in its region. -/
theorem pagesSize_spec {npages : ℕ} (h : npages ≤ 16639) :
    (pagesSize npages).toNat % pgSize = 0 ∧ (pagesSize npages).toNat / pgSize ≤ 65 := by
  have hsize : (BitVec.ofNat 32 (pageInfoSize * npages)).toNat = 16 * npages := by
    rw [BitVec.toNat_ofNat, pageInfoSize]
    omega
  have hround := @toNat_roundUp (BitVec.ofNat 32 (pageInfoSize * npages)) (by omega)
  rw [pagesSize, hround, pagesOf, hsize, pgSize]
  omega

theorem paddr_eq {kva pa : BitVec 32} (h : paddr kva = .ok pa) :
    pa = kva - kernBase ∧ kernBase ≤ kva := by
  unfold paddr at h
  split at h
  · exact nomatch h
  · rename_i hge
    split at h
    · exact nomatch h
    · exact ⟨(Except.ok.inj h).symm, BitVec.not_lt.1 hge⟩

/-- The physical address of a page-aligned kernel address. -/
theorem paddr_page {kva pa : BitVec 32} (h : paddr kva = .ok pa) (hoff : pgoff kva = 0) :
    pgoff pa = 0 ∧ pgnum pa < 65536 := by
  obtain ⟨rfl, hge⟩ := paddr_eq h
  have hkb : kernBase.toNat = 4026531840 := rfl
  have hsub := BitVec.toNat_sub_of_le hge
  have hlt := kva.isLt
  rw [pgoff_eq] at hoff ⊢
  rw [pgnum_eq, hsub, hkb]
  omega

/-! ### The stacks of the CPUs -/

section Stacks

variable {s : Vm} {d : ℕ} {l : List ℕ} {F : ℕ → BitVec 32} {percpuKstacks : BitVec 32}

theorem stackPages_succ (n : ℕ) :
    stackPages (n + 1) = stackPages n ∪ regionPages (stackVa n) kStkSize := by
  rw [stackPages, stackPages, Finset.range_add_one, Finset.biUnion_insert, Finset.union_comm]

theorem stackPages_mono {n k : ℕ} (h : n ≤ k) : stackPages n ⊆ stackPages k :=
  Finset.biUnion_subset_biUnion_of_subset_left _ (Finset.range_subset_range.2 h)

/-- **`mem_init_mp`**: the stacks are mapped. -/
theorem memInitMp_maps (h : BootDir s.mm d l) (hfill : s.mm.Fillable d (stackPages nCpu))
    (he : FramesLeft s.mm l (s.mm.missing d (stackPages nCpu)).card)
    (hstacks : ∀ i < nCpu, ∃ pa, paddr (percpuKstacks + BitVec.ofNat 32 i * kStkSize) = .ok pa ∧
      pgoff pa = 0 ∧ pgnum pa < 65536 ∧
      ∀ k < 8, F (vpn (stackVa i) + k) = page2pa (pgnum pa + k) ||| (pteW ||| pteP)) :
    ∃ s' l', memInitMp s (some d) percpuKstacks = .ok s' ∧
      StaticMap s s' d l l' (stackPages nCpu) (stackPages nCpu) F := by
  have hloop : Ends (fun _ => False)
      (fun st : Vm × BitVec 32 => ∃ l',
        StaticMap s st.1 d l l' (stackPages nCpu) (stackPages nCpu) F ∧
        st.2 = kStackTop - BitVec.ofNat 32 nCpu * (kStkGap + kStkSize))
      ((List.range' 0 nCpu).foldlM (fun (st : Vm × BitVec 32) i => do
        let pa ← paddr (percpuKstacks + BitVec.ofNat 32 i * kStkSize)
        let s ← bootMapRegion st.1 (some d) (st.2 - kStkSize) kStkSize pa pteW
        pure (s, st.2 - (kStkGap + kStkSize))) (s, kStackTop)) := by
    refine ends_foldlM_range' (P := fun n (st : Vm × BitVec 32) => ∃ l', StaticMap s st.1 d l l'
      (stackPages n) (stackPages n) F ∧
      st.2 = kStackTop - BitVec.ofNat 32 n * (kStkGap + kStkSize)) ⟨l, .refl h, rfl⟩ ?_
    rintro n hn ⟨s₁, ktop⟩ ⟨l₁, hmaps, htop⟩
    have hmaps : StaticMap s s₁ d l l₁ (stackPages n) (stackPages n) F := hmaps
    have htop : ktop = kStackTop - BitVec.ofNat 32 n * (kStkGap + kStkSize) := htop
    obtain ⟨pa, hpa, hoff, hnum, hF⟩ := hstacks n hn
    have hvpn := vpn_stackVa n hn
    have hva : ktop - kStkSize = stackVa n := by rw [htop, stackVa]
    have hsub : stackPages (n + 1) ⊆ stackPages nCpu := stackPages_mono hn
    have hlast : regionPages (stackVa n) kStkSize ⊆ stackPages (n + 1) := by
      rw [stackPages_succ]
      exact Finset.subset_union_right
    have hready := hmaps.ready (regionPages (stackVa n) kStkSize) (by
      rw [← stackPages_succ]
      exact he.mono (s.mm.missing_mono d hsub))
    obtain ⟨s₂, l₂, hrun, hmaps₂⟩ := bootMapRegion_maps (stackVa n) kStkSize pa pteW F hmaps.inv
      (hmaps.fillable h (hfill.mono (hlast.trans hsub))) hready (by decide)
        hoff (by rw [hvpn, kStkSize_pages]; omega)
      (by decide) (by decide) (by rw [kStkSize_pages]; exact hF)
    have hboth := hmaps.trans h hmaps₂ (hfill.mono (stackPages_mono (Nat.le_of_lt hn)))
    rw [← stackPages_succ] at hboth
    dsimp only
    rw [Nat.zero_add, hpa, hva]
    change Ends _ _ (bootMapRegion s₁ (some d) (stackVa n) kStkSize pa pteW >>= fun s =>
      pure (s, ktop - (kStkGap + kStkSize)))
    rw [hrun]
    refine ⟨l₂, hboth, ?_⟩
    have hofNat : BitVec.ofNat 32 (n + 1) = BitVec.ofNat 32 n + 1#32 := BitVec.ofNat_add n 1
    change ktop - (kStkGap + kStkSize) = _
    rw [htop, hofNat]
    generalize BitVec.ofNat 32 n = b
    generalize kStkGap + kStkSize = g
    rw [BitVec.add_mul, BitVec.one_mul]
    exact BitVec.sub_sub ..
  obtain ⟨⟨s', ktop⟩, hrun, l', hmaps, -⟩ := hloop.exists_ok fun _ hc => hc
  refine ⟨s', l', ?_, hmaps⟩
  rw [memInitMp, hrun]
  rfl

end Stacks

/-! ### All regions -/

/-- **What `mem_init` gets from the linker and from `boot_alloc`**: the arrays `pages`, `envs` and
`percpu_kstacks` at page-aligned addresses of the kernel. -/
structure KernelAddrs (pages envs percpuKstacks : BitVec 32) : Prop where
  ofPages : ∃ pa, paddr pages = .ok pa
  pagesOff : pgoff pages = 0
  ofEnvs : ∃ pa, paddr envs = .ok pa
  envsOff : pgoff envs = 0
  ofStacks : ∀ i < nCpu, ∃ pa, paddr (percpuKstacks + BitVec.ofNat 32 i * kStkSize) = .ok pa
  stacksOff : pgoff percpuKstacks = 0

/-- The stacks are page-aligned. -/
theorem stack_off {percpuKstacks : BitVec 32} (h : pgoff percpuKstacks = 0) (i : ℕ) :
    pgoff (percpuKstacks + BitVec.ofNat 32 i * kStkSize) = 0 := by
  have hsize : kStkSize.toNat = 32768 := rfl
  rw [pgoff_eq] at h ⊢
  rw [BitVec.toNat_add, BitVec.toNat_mul, BitVec.toNat_ofNat, hsize]
  omega

section Regions

variable {s : Vm} {d : ℕ} {l : List ℕ} {pages envs percpuKstacks : BitVec 32}

/-- The entries of the stack of CPU `i`. -/
theorem bootValue_stack {i : ℕ} (hi : i < nCpu) {pa : BitVec 32}
    (hpa : paddr (percpuKstacks + BitVec.ofNat 32 i * kStkSize) = .ok pa) {k : ℕ} (hk : k < 8) :
    bootValue pages envs percpuKstacks (vpn (stackVa i) + k) = page2pa (pgnum pa + k) |||
      (pteW ||| pteP) := by
  have hcpu : i < 8 := hi
  have hcpus : (983039 - (983032 - 16 * i + k)) / 16 = i := by omega
  have hpos : 7 - (983039 - (983032 - 16 * i + k)) % 16 = k := by omega
  rw [bootValue, vpn_stackVa i hi, vpn_kernBase, if_neg (by omega), if_pos (by omega), hcpus, hpos,
    (paddr_eq hpa).1]

theorem bootValue_kern {k : ℕ} :
    bootValue pages envs percpuKstacks (vpn kernBase + k) = page2pa k ||| (pteW ||| pteP) := by
  rw [bootValue, if_pos (Nat.le_add_right _ k), Nat.add_sub_cancel_left]

theorem bootValue_pages {k : ℕ} (hk : k < 65) :
    bootValue pages envs percpuKstacks (vpn uPages + k) = page2pa (pgnum (pages - kernBase) + k) |||
      (pteU ||| pteP) := by
  rw [bootValue, vpn_kernBase, vpn_uPages, if_neg (by omega), if_neg (by omega), if_pos (by omega),
    Nat.add_sub_cancel_left]

theorem bootValue_envs {k : ℕ} (hk : k < 977) :
    bootValue pages envs percpuKstacks (vpn uEnvs + k) = page2pa (pgnum (envs - kernBase) + k) |||
      (pteU ||| pteP) := by
  rw [bootValue, vpn_kernBase, vpn_uPages, vpn_uEnvs, if_neg (by omega), if_neg (by omega),
    if_neg (by omega), Nat.add_sub_cancel_left]

/-- **The calls in `mem_init`**, one after the other. -/
theorem memInitRegions_maps (hk : KernelAddrs pages envs percpuKstacks) (hnp : s.mm.npages ≤ 16639)
    (h : BootDir s.mm d l) (hfill : s.mm.Fillable d (bootPages s.mm.npages))
    (he : FramesLeft s.mm l (s.mm.missing d (bootPages s.mm.npages)).card) :
    ∃ s' l', memInitRegions s (some d) pages envs percpuKstacks = .ok s' ∧
      StaticMap s s' d l l' (bootPages s.mm.npages) (bootPages s.mm.npages)
        (bootValue pages envs percpuKstacks) := by
  obtain ⟨pa₁, hpa₁⟩ := hk.ofPages
  obtain ⟨pa₂, hpa₂⟩ := hk.ofEnvs
  obtain ⟨hoff₁, hnum₁⟩ := paddr_page hpa₁ hk.pagesOff
  obtain ⟨hoff₂, hnum₂⟩ := paddr_page hpa₂ hk.envsOff
  obtain ⟨hsize, hcount⟩ := pagesSize_spec hnp
  have hfill₁ : s.mm.Fillable d (regionPages uPages (pagesSize s.mm.npages)) :=
    hfill.mono Finset.subset_union_left
  have hfill₂ : s.mm.Fillable d (regionPages uEnvs envsSize) :=
    hfill.mono (Finset.subset_union_left.trans Finset.subset_union_right)
  have hfill₃ : s.mm.Fillable d (regionPages kernBase (0 - kernBase)) :=
    hfill.mono ((Finset.subset_union_left.trans Finset.subset_union_right).trans
      Finset.subset_union_right)
  have hfill₄ : s.mm.Fillable d (stackPages nCpu) :=
    hfill.mono ((Finset.subset_union_right.trans Finset.subset_union_right).trans
      Finset.subset_union_right)
  -- `pages`
  obtain ⟨s₁, l₁, hrun₁, hmaps₁⟩ := bootMapRegion_maps uPages (pagesSize s.mm.npages) pa₁ pteU
    (bootValue pages envs percpuKstacks) h hfill₁
    (he.mono (s.mm.missing_mono d Finset.subset_union_left)) hsize
      hoff₁ (by rw [vpn_uPages]; omega) (by decide) (by decide) (by
      intro k hlt
      rw [(paddr_eq hpa₁).1]
      exact bootValue_pages (by omega))
  have he₁ := hmaps₁.ready _ he
  -- `envs`
  obtain ⟨s₂, l₂, hrun₂, hmaps₂⟩ := bootMapRegion_maps uEnvs envsSize pa₂ pteU
    (bootValue pages envs percpuKstacks) hmaps₁.inv (hmaps₁.fillable h hfill₂)
    (he₁.mono (s₁.mm.missing_mono d Finset.subset_union_left))
    (by decide) hoff₂ (by rw [vpn_uEnvs, envsSize_pages]; omega) (by decide) (by decide) (by
      intro k hlt
      rw [envsSize_pages] at hlt
      rw [(paddr_eq hpa₂).1]
      exact bootValue_envs hlt)
  have he₂ := hmaps₂.ready _ he₁
  have hmaps₁₂ := hmaps₁.trans h hmaps₂ hfill₁
  -- all of physical memory
  obtain ⟨s₃, l₃, hrun₃, hmaps₃⟩ := bootMapRegion_maps kernBase (0 - kernBase) 0 pteW
    (bootValue pages envs percpuKstacks) hmaps₂.inv (hmaps₁₂.fillable h hfill₃)
    (he₂.mono (s₂.mm.missing_mono d Finset.subset_union_left)) (by decide) (by decide)
    (by rw [vpn_kernBase, kernSize_pages]; decide) (by decide) (by decide) (by
      intro k _
      have hzero : pgnum 0 = 0 := by decide
      rw [hzero, Nat.zero_add]
      exact bootValue_kern)
  have he₃ := hmaps₃.ready _ he₂
  have hmaps₂₃ := hmaps₂.trans hmaps₁.inv hmaps₃ (hmaps₁.fillable h hfill₂)
  have hmaps₁₃ := hmaps₁.trans h hmaps₂₃ hfill₁
  -- the stacks
  obtain ⟨s₄, l₄, hrun₄, hmaps₄⟩ := memInitMp_maps (F := bootValue pages envs percpuKstacks)
    hmaps₃.inv (hmaps₁₃.fillable h hfill₄) he₃ (by
    intro i hi
    obtain ⟨pa, hpa⟩ := hk.ofStacks i hi
    obtain ⟨hoff, hnum⟩ := paddr_page hpa (stack_off hk.stacksOff i)
    exact ⟨pa, hpa, hoff, hnum, fun k hlt => bootValue_stack hi hpa hlt⟩)
  have hmaps₃₄ := hmaps₃.trans hmaps₂.inv hmaps₄ (hmaps₁₂.fillable h hfill₃)
  have hmaps₂₄ := hmaps₂.trans hmaps₁.inv hmaps₃₄ (hmaps₁.fillable h hfill₂)
  refine ⟨s₄, l₄, ?_, hmaps₁.trans h hmaps₂₄ hfill₁⟩
  have hsame : roundUp (BitVec.ofNat 32 (pageInfoSize * s.mm.npages)) (BitVec.ofNat 32 pgSize) =
      pagesSize s.mm.npages := rfl
  have hsame₂ : BitVec.ofNat 32 (envSize * nEnv) = envsSize := rfl
  rw [memInitRegions, hpa₁, hsame, hsame₂]
  refine bind_eq_ok.2 ⟨pa₁, rfl, bind_eq_ok.2 ⟨s₁, hrun₁, ?_⟩⟩
  rw [hpa₂]
  exact bind_eq_ok.2 ⟨pa₂, rfl, bind_eq_ok.2 ⟨s₂, hrun₂, bind_eq_ok.2 ⟨s₃, hrun₃, hrun₄⟩⟩⟩

end Regions

/-! ### What is in the directory afterwards -/

/-- **One region has been mapped.** -/
structure RegionMapped (s s' : Vm) (d : ℕ) (l l' : List ℕ) (va size pa perm : BitVec 32) :
    Prop where
  /-- The pages of the region have entries in page tables. -/
  entries : ∀ k < size.toNat / pgSize, s'.mm.HasTable d ((vpn va + k) / 1024) ∧
    s'.mm.entry d (vpn va + k) = (pa + BitVec.ofNat 32 (k * pgSize)) ||| perm ||| pteP
  /-- The entries of the others are as before, but for those that are words of the directory. -/
  others : ∀ q < 2 ^ 20, q ∉ regionPages va size → ¬ PtInv.Window s.mm d q →
    s'.mm.entry d q = s.mm.entry d q
  /-- There, the entries of the new page tables appear, and nothing else changes. -/
  window : ∀ q < 2 ^ 20, q ∉ regionPages va size → PtInv.Window s.mm d q →
    s'.mm.entry d q = s.mm.entry d q ∨
    (isPresent (s.mm.entry d q) = false ∧ ∃ t ∈ l, t ∉ l' ∧ s'.mm.entry d q = tablePde t ∧
      ∃ p ∈ regionPages va size, p / 1024 = q % 1024)
  /-- A new page table has one reference. -/
  tables : ∀ i < 1024, isPresent (s.mm.word d i) = false → isPresent (s'.mm.word d i) = true →
    ∃ t ∈ l, t ∉ l' ∧ s'.mm.word d i = tablePde t ∧ s'.ref t = 1
  /-- No other frame has another number of them. -/
  refs : ∀ f, s'.ref f = s.ref f ∨
    (f ∈ l ∧ ∃ i < 1024, isPresent (s.mm.word d i) = false ∧ s'.mm.word d i = tablePde f)

/-- **What the directory of the kernel has in the end.** -/
structure KernelMap (m : Mm) (d : ℕ) : Prop where
  /-- `KERNBASE + x` is the physical address `x`. -/
  kern : ∀ x : BitVec 32, x.toNat < 2 ^ 32 - kernBase.toNat →
    m.HasTable d (vpn (kernBase + x) / 1024) ∧
    isPresent (m.entry d (vpn (kernBase + x))) = true ∧ pteAddr (m.entry d (vpn (kernBase + x))) +
      BitVec.ofNat 32 (pgoff x) = x
  /-- Nothing is below the stacks. -/
  gaps : ∀ i < nCpu, ∀ k < kStkGap.toNat / pgSize, isPresent (m.entry d (gapPage i k)) = false

section Afterwards

variable {s s' : Vm} {d : ℕ} {l l' : List ℕ} {S Q : Finset ℕ} {F : ℕ → BitVec 32}

theorem Mm.word_of_window {m : Mm} {q : ℕ} (h : PtInv.Window m d q) :
    m.entry d q = m.word d (q % 1024) := by
  rw [Mm.entry_of_small h.2.1 h.1, h.2.2]

/-- A page whose entry is present has a page table, if it is not in a 4 MB page. -/
theorem StaticMap.hasTable (h : StaticMap s s' d l l' S Q F) (h₀ : BootDir s.mm d l)
    (hfill : s.mm.Fillable d Q) {q : ℕ} (hq : q ∈ Q) (hP : isPresent (F q) = true) :
    s'.mm.HasTable d (q / 1024) := by
  have hpde : isPresent (s'.mm.word d (q / 1024)) = true := by
    by_contra hc
    have hzero := Mm.entry_of_absent (m := s'.mm) (d := d) (p := q) (by simpa using hc)
    rw [h.done q hq] at hzero
    rw [hzero] at hP
    exact absurd hP (by decide)
  exact ⟨hpde, ((h.fillable h₀ hfill q hq).2 hpde).1⟩

/-- In the window, the entries of the new page tables appear. -/
theorem StaticMap.window (h : StaticMap s s' d l l' S Q F) {q : ℕ} (hlt : q < 2 ^ 20)
    (hwin : PtInv.Window s.mm d q) :
    s'.mm.entry d q = s.mm.entry d q ∨
      (isPresent (s.mm.entry d q) = false ∧ ∃ t ∈ l, t ∉ l' ∧ s'.mm.entry d q = tablePde t ∧
        ∃ p ∈ S, p / 1024 = q % 1024) := by
  have hslot : s'.mm.word d (q / 1024) = s.mm.word d (q / 1024) := h.slot_kept (by omega) hwin.2.1
  have hwin' : PtInv.Window s'.mm d q := by
    rw [PtInv.Window, hslot]
    exact hwin
  rw [Mm.word_of_window hwin, Mm.word_of_window hwin']
  rcases h.slots (q % 1024) (Nat.mod_lt _ (by decide)) with heq | ⟨habs, t, ht, ht', heq, -, hpage⟩
  · exact Or.inl heq
  · exact Or.inr ⟨habs, t, ht, ht', heq, hpage⟩

/-- What one region looks like. -/
theorem StaticMap.regionMapped {va size pa perm : BitVec 32} (h₀ : BootDir s.mm d l)
    (hfill : s.mm.Fillable d (regionPages va size))
    (h : StaticMap s s' d l l' (regionPages va size) (regionPages va size) F)
    (hF : ∀ k < size.toNat / pgSize, F (vpn va + k) = (pa + BitVec.ofNat 32 (k * pgSize)) |||
      perm ||| pteP) :
    RegionMapped s s' d l l' va size pa perm where
  entries k hk := by
    have hmem : vpn va + k ∈ regionPages va size :=
      Finset.mem_Ico.2 ⟨Nat.le_add_right _ k, by omega⟩
    refine ⟨h.hasTable h₀ hfill hmem ?_, (h.done _ hmem).trans (hF k hk)⟩
    rw [hF k hk]
    exact isPresent_or_pteP _
  others := h.rest
  window q hlt _ hwin := h.window hlt hwin
  tables i hi habs hP := by
    rcases h.slots i hi with heq | ⟨-, t, ht, ht', heq, href, -⟩
    · rw [heq, habs] at hP
      exact absurd hP (by decide)
    · exact ⟨t, ht, ht', heq, href⟩
  refs f := by
    rcases h.refs f with heq | ⟨hf, -, hslot⟩
    · exact Or.inl heq
    · exact Or.inr ⟨hf, hslot⟩

/-- What the regions of `mem_init` look like. -/
theorem StaticMap.kernelMap {pages envs percpuKstacks : BitVec 32} {npages : ℕ}
    (h₀ : BootDir s.mm d l)
    (hfill : s.mm.Fillable d (bootPages npages)) (hnp : npages ≤ 16639)
    (h : StaticMap s s' d l l' (bootPages npages) (bootPages npages)
      (bootValue pages envs percpuKstacks))
    (hgaps : ∀ i < nCpu, ∀ k < kStkGap.toNat / pgSize, isPresent (s.mm.entry d (gapPage i k)) =
      false) : KernelMap s'.mm d where
  kern x hx := by
    have hkb : kernBase.toNat = 4026531840 := rfl
    have hsum : vpn (kernBase + x) = vpn kernBase + pgnum x := by
      rw [vpn_kernBase, pgnum_eq, vpn, BitVec.toNat_add, hkb]
      omega
    have hnum : pgnum x < 65536 := by
      rw [pgnum_eq]
      omega
    have hmem : vpn kernBase + pgnum x ∈ bootPages npages := by
      refine Finset.mem_union_right _ (Finset.mem_union_right _
        (Finset.mem_union_left _ (Finset.mem_Ico.2 ⟨Nat.le_add_right .., ?_⟩)))
      rw [kernSize_pages]
      omega
    have hP : isPresent (bootValue pages envs percpuKstacks (vpn kernBase + pgnum x)) = true := by
      rw [bootValue_kern, ← BitVec.or_assoc]
      exact isPresent_or_pteP _
    rw [hsum]
    refine ⟨h.hasTable h₀ hfill hmem hP, by rw [h.done _ hmem]; exact hP, ?_⟩
    rw [h.done _ hmem, bootValue_kern]
    refine BitVec.eq_of_toNat_eq ?_
    have hlt := x.isLt
    rw [BitVec.toNat_add, pteAddr_toNat, pgnum_page2pa_or (by omega) (by decide),
      BitVec.toNat_ofNat, pgoff_eq, pgnum_eq]
    omega
  gaps i hi k hk := by
    have hcpu : i < 8 := hi
    have hk : k < 8 := hk
    have hgap := vpn_gap i hi
    have hpage : gapPage i k = 983024 - 16 * i + k := by rw [gapPage, hgap]
    -- the gap is in the slot of the stacks, which does not lead back to the directory
    have hstack : vpn (stackVa 0) ∈ bootPages npages := by
      refine Finset.mem_union_right _ (Finset.mem_union_right _
        (Finset.mem_union_right _ (Finset.mem_biUnion.2 ⟨0, by decide, ?_⟩)))
      exact Finset.mem_Ico.2 ⟨Nat.le_refl _, by rw [kStkSize_pages]; omega⟩
    have hwin : ¬ PtInv.Window s.mm d (gapPage i k) := by
      have hnot := hfill.not_window hstack
      have hslot : gapPage i k / 1024 = vpn (stackVa 0) / 1024 := by
        rw [hpage, vpn_stackVa 0 (by decide)]
        omega
      rwa [PtInv.Window, hslot]
    have hout : gapPage i k ∉ bootPages npages := by
      have hpages := (pagesSize_spec hnp).2
      intro hmem
      rw [hpage] at hmem
      rcases Finset.mem_union.1 hmem with hmem | hmem
      · have := (Finset.mem_Ico.1 hmem).2
        rw [vpn_uPages] at this
        omega
      rcases Finset.mem_union.1 hmem with hmem | hmem
      · have := (Finset.mem_Ico.1 hmem).2
        rw [vpn_uEnvs, envsSize_pages] at this
        omega
      rcases Finset.mem_union.1 hmem with hmem | hmem
      · have := (Finset.mem_Ico.1 hmem).1
        rw [vpn_kernBase] at this
        omega
      · obtain ⟨j, hj, hmem⟩ := Finset.mem_biUnion.1 hmem
        have hj := Finset.mem_range.1 hj
        have hcpu' : j < 8 := hj
        obtain ⟨hlo, hhi⟩ := Finset.mem_Ico.1 hmem
        rw [vpn_stackVa j hj] at hlo hhi
        rw [kStkSize_pages] at hhi
        omega
    rw [h.rest _ (by rw [hpage]; omega) hout hwin]
    exact hgaps i hi k hk

end Afterwards

/-- **Static mappings are exact.** A region gets the entries that `boot_map_region` is asked for,
with one reference for each page table that is added, and no other entry changes, except in the
window that shows the directory itself. The calls in `mem_init` map all of physical memory at
`KERNBASE`, and leave the gaps between the stacks alone. -/
theorem staticMaps_exact {s : Vm} {d : ℕ} {l : List ℕ} (h : BootDir s.mm d l) :
    (∀ va size pa perm : BitVec 32, pgoff va = 0 → pgoff pa = 0 → size.toNat % pgSize = 0 →
      va.toNat + size.toNat ≤ 2 ^ 32 →
      pa.toNat + size.toNat ≤ 2 ^ 32 → perm.toNat < 4096 → isPresent perm = false →
      s.mm.Fillable d (regionPages va size) →
      FramesLeft s.mm l (s.mm.missing d (regionPages va size)).card →
      ∃ s' l', bootMapRegion s (some d) va size pa perm = .ok s' ∧
        RegionMapped s s' d l l' va size pa perm) ∧
    ∀ (pages envs percpuKstacks : BitVec 32) (baseMem extMem : BitVec 16),
      KernelAddrs pages envs percpuKstacks →
      s.mm.npages = i386DetectMemory baseMem extMem → s.mm.Fillable d (bootPages s.mm.npages) →
      FramesLeft s.mm l (s.mm.missing d (bootPages s.mm.npages)).card →
      (∀ i < nCpu, ∀ k < kStkGap.toNat / pgSize, isPresent (s.mm.entry d (gapPage i k)) = false) →
      ∃ s', memInitRegions s (some d) pages envs percpuKstacks = .ok s' ∧ KernelMap s'.mm d := by
  refine ⟨fun va size pa perm hva hpa hsize hvaEnd _ hlow hperm hfill he => ?_, ?_⟩
  · have hsz : pgSize = 4096 := rfl
    rw [pgoff_eq] at hva
    have hva' : vpn va + size.toNat / pgSize ≤ 2 ^ 20 := by
      rw [vpn, hsz]
      omega
    obtain ⟨s', l', hrun, hmaps⟩ := bootMapRegion_maps va size pa perm
      (fun q => page2pa (pgnum pa + (q - vpn va)) ||| (perm ||| pteP)) h hfill he hsize
      hpa hva' hlow hperm fun k _ => by rw [Nat.add_sub_cancel_left]
    refine ⟨s', l', hrun, hmaps.regionMapped h hfill fun k _ => ?_⟩
    rw [Nat.add_sub_cancel_left, page2pa_pgnum_add hpa, BitVec.or_assoc]
  · intro pages envs percpuKstacks baseMem extMem hk hnp hfill he hgaps
    have hle : s.mm.npages ≤ 16639 := by
      rw [hnp]
      exact i386DetectMemory_le baseMem extMem
    obtain ⟨s', l', hrun, hmaps⟩ := memInitRegions_maps hk hle h hfill he
    exact ⟨s', hrun, hmaps.kernelMap h hfill hle hgaps⟩

/-! ### A machine that boots -/

/-- A chain through consecutive frames. -/
theorem chain_range' {next : ℕ → Option ℕ} :
    ∀ {n a : ℕ}, (∀ i, a ≤ i → i < a + n → next i = some (i + 1)) → next (a + n) = none →
    Chain next (some a) (List.range' a (n + 1)) := by
  intro n
  induction n with
  | zero => exact fun {a} _ hend => ⟨rfl, hend⟩
  | succ n ih =>
      intro a hnext hend
      refine ⟨rfl, ?_⟩
      rw [hnext a (Nat.le_refl a) (by omega)]
      refine ih (fun i hi hi' => hnext i (by omega) (by omega)) ?_
      rw [Nat.add_right_comm, Nat.add_assoc]
      exact hend

/-- A directory in the frame 1 that is empty but for the window at `UVPT`. -/
def bootWords (f i : ℕ) : BitVec 32 :=
  if f = 1 ∧ i = pdx uVpt then page2pa 1 ||| (pteU ||| pteP) else 0

/-- The frames from 2 to 101 are free. -/
def bootFrames : List ℕ := List.range' 2 100

/-- A machine with 800 KB of memory, before anything is mapped. -/
def bootState : Vm where
  mm := ⟨200, by decide, true, fun i =>
    ⟨if 2 ≤ i ∧ i < 101 then some (i + 1) else none, none, 0, 0⟩, some 2, 100,
    ⟨none, none, none, none, none, none⟩, 0, 0, bytesOf bootWords⟩
  envs _ := Space.ofDir 1
  kernPgdir _ := 0
  image _ := 0
  envFrame _ := 0
  written := []

theorem bootState_word (f i : ℕ) : bootState.mm.word f i = bootWords f i := by
  have h : ∀ (m : Mm), m.mem = bytesOf bootWords → m.word f i = bootWords f i :=
    fun m hm => Mm.word_bytesOf (w := bootWords) (congrFun hm f) i
  exact h bootState.mm rfl

theorem bootState_absent {i : ℕ} (hi : i ≠ 957) : bootState.mm.word 1 i = 0 := by
  have hvpt : pdx uVpt = 957 := by decide
  rw [bootState_word, bootWords, hvpt, if_neg fun hc => hi hc.2]

theorem bootState_window : bootState.mm.word 1 957 = 0x1005#32 := by
  rw [bootState_word]
  decide

theorem bootState_dir : BootDir bootState.mm 1 bootFrames := by
  have honly : ∀ i, isPresent (bootState.mm.word 1 i) = true → i = 957 := by
    intro i hP
    by_contra hi
    rw [bootState_absent hi] at hP
    exact absurd hP (by decide)
  have hmem : ∀ {i : ℕ}, i ∈ bootFrames ↔ 2 ≤ i ∧ i < 102 := List.mem_range'_1
  have hlink : ∀ i, bootState.mm.link i = if 2 ≤ i ∧ i < 101 then some (i + 1) else none :=
    fun i => rfl
  refine ⟨⟨?_, ?_, ?_⟩, by decide, ?_, ?_⟩
  · refine chain_range' (n := 99) (a := 2) (fun i hi hi' => ?_) ?_
    · rw [hlink, if_pos ⟨hi, hi'⟩]
    · rw [hlink]
      decide
  · intro i hi
    exact ⟨Nat.lt_trans (hmem.1 hi).2 (by decide), rfl, rfl⟩
  · intro i hi
    rw [hlink, if_neg]
    exact fun hc => hi (hmem.2 ⟨hc.1, Nat.lt_succ_of_lt hc.2⟩)
  · intro i _ hP _
    rw [honly i hP, bootState_window]
    decide
  · intro i _ j _ hi _ hj _ _
    rw [honly i hi, honly j hj]

theorem bootState_fillable {Q : Finset ℕ} (hQ : ∀ q ∈ Q, q < 2 ^ 20 ∧ q / 1024 ≠ 957) :
    bootState.mm.Fillable 1 Q := by
  refine fun q hq => ⟨(hQ q hq).1, fun hP => ?_⟩
  rw [bootState_absent (hQ q hq).2] at hP
  exact absurd hP (by decide)

/-- The free frames are enough for all slots from `UENVS` on. -/
theorem bootState_enough {Q : Finset ℕ} (hQ : ∀ q ∈ Q, 955 ≤ q / 1024 ∧ q < 2 ^ 20) :
    FramesLeft bootState.mm bootFrames (bootState.mm.missing 1 Q).card := by
  have hall : FramesLeft bootState.mm bootFrames 100 := ⟨by decide, by decide⟩
  refine hall.mono ?_
  have hsub : bootState.mm.missing 1 Q ⊆ Finset.Ico 955 1024 := by
    intro i hi
    obtain ⟨q, hq, rfl⟩ := Finset.mem_image.1 (Finset.mem_filter.1 hi).1
    have hrange := hQ q hq
    exact Finset.mem_Ico.2 ⟨hrange.1, by omega⟩
  have hcard := Finset.card_le_card hsub
  rw [Nat.card_Ico] at hcard
  omega

/-- Where the pages of the regions are. -/
theorem mem_bootPages {q : ℕ} (hq : q ∈ bootPages 200) :
    955 ≤ q / 1024 ∧ q < 2 ^ 20 ∧ q / 1024 ≠ 957 := by
  have hpages := (@pagesSize_spec 200 (by decide)).2
  rcases Finset.mem_union.1 hq with hq | hq
  · have hin := Finset.mem_Ico.1 hq
    rw [vpn_uPages] at hin
    omega
  rcases Finset.mem_union.1 hq with hq | hq
  · have hin := Finset.mem_Ico.1 hq
    rw [vpn_uEnvs, envsSize_pages] at hin
    omega
  rcases Finset.mem_union.1 hq with hq | hq
  · have hin := Finset.mem_Ico.1 hq
    rw [vpn_kernBase, kernSize_pages] at hin
    omega
  · obtain ⟨j, hj, hq⟩ := Finset.mem_biUnion.1 hq
    have hj := Finset.mem_range.1 hj
    have hcpu : j < 8 := hj
    have hin := Finset.mem_Ico.1 hq
    rw [vpn_stackVa j hj, kStkSize_pages] at hin
    omega

theorem bootState_gaps :
    ∀ i < nCpu, ∀ k < kStkGap.toNat / pgSize, isPresent (bootState.mm.entry 1 (gapPage i k)) =
      false := by
  intro i hi k hk
  have hcpu : i < 8 := hi
  have hk : k < 8 := hk
  have hslot : gapPage i k / 1024 ≠ 957 := by
    rw [gapPage, vpn_gap i hi]
    omega
  rw [Mm.entry_of_absent (by rw [bootState_absent hslot]; decide)]
  decide

/-- The machine boots: a region of one page, and all of them. -/
theorem staticMaps_exact_boot :
    (∃ s' l', bootMapRegion bootState (some 1) kernBase 0x1000 0 pteW = .ok s' ∧
      RegionMapped bootState s' 1 bootFrames l' kernBase 0x1000 0 pteW) ∧
    ∃ s', memInitRegions bootState (some 1) 0xf0110000 0xf0120000 0xf0300000 = .ok s' ∧
      KernelMap s'.mm 1 := by
  have hone : ∀ q ∈ regionPages kernBase 0x1000, q = 983040 := by
    intro q hq
    have hin := Finset.mem_Ico.1 hq
    have hsize : (0x1000 : BitVec 32).toNat / pgSize = 1 := by decide
    rw [vpn_kernBase, hsize] at hin
    omega
  refine ⟨(staticMaps_exact bootState_dir).1 kernBase 0x1000 0
    pteW (by decide) (by decide) (by decide) (by decide) (by decide) (by decide) (by decide)
    (bootState_fillable fun q hq => ?_) (bootState_enough fun q hq => ?_),
    (staticMaps_exact bootState_dir).2 0xf0110000 0xf0120000 0xf0300000 800 0 ?_ (by decide)
      (bootState_fillable fun q hq => ⟨(mem_bootPages hq).2.1, (mem_bootPages hq).2.2⟩)
      (bootState_enough fun q hq => ⟨(mem_bootPages hq).1, (mem_bootPages hq).2.1⟩) bootState_gaps⟩
  · rw [hone q hq]
    decide
  · rw [hone q hq]
    decide
  · refine ⟨⟨0x110000, by decide⟩, by decide, ⟨0x120000, by decide⟩, by decide, ?_, by decide⟩
    intro i hi
    have hok : ∀ i < nCpu, paddr (0xf0300000 + BitVec.ofNat 32 i * kStkSize) =
        .ok (0x300000 + BitVec.ofNat 32 i * kStkSize) := by decide
    exact ⟨_, hok i hi⟩

/-- A new page table appears in the window: the entry of a page that is not in the region
changes. -/
theorem window_changes {s s' : Vm} {d : ℕ} {l l' : List ℕ} {S Q : Finset ℕ} {F : ℕ → BitVec 32}
    (h : StaticMap s s' d l l' S Q F) {p q : ℕ} (hp : p ∈ Q) (hF : isPresent (F p) = true)
    (hq : q < 2 ^ 20) (hslot : q % 1024 = p / 1024) (hwin : PtInv.Window s.mm d q)
    (habs : isPresent (s.mm.word d (p / 1024)) = false) : s'.mm.entry d q ≠ s.mm.entry d q := by
  have hkept : s'.mm.word d (q / 1024) = s.mm.word d (q / 1024) := h.slot_kept (by omega) hwin.2.1
  have hwin' : PtInv.Window s'.mm d q := by
    rw [PtInv.Window, hkept]
    exact hwin
  have hP : isPresent (s'.mm.word d (p / 1024)) = true := by
    by_contra hc
    have hzero := Mm.entry_of_absent (m := s'.mm) (d := d) (p := p) (by simpa using hc)
    rw [h.done p hp] at hzero
    rw [hzero] at hF
    exact absurd hF (by decide)
  rw [Mm.word_of_window hwin, Mm.word_of_window hwin', hslot]
  intro heq
  rw [heq, habs] at hP
  exact absurd hP (by decide)

/-- **Not every other entry is unchanged**: mapping one page at `KERNBASE` gives the page at `UVPT`
that shows this part of the directory another entry. -/
theorem uvpt_changes :
    ¬ ∀ (s : Vm) (d : ℕ) (l : List ℕ) (va size pa perm : BitVec 32), BootDir s.mm d l →
      pgoff va = 0 → pgoff pa = 0 →
    size.toNat % pgSize = 0 → va.toNat + size.toNat ≤ 2 ^ 32 → pa.toNat + size.toNat ≤ 2 ^ 32 →
      perm.toNat < 4096 → isPresent perm = false →
    s.mm.Fillable d (regionPages va size) → FramesLeft s.mm l
      (s.mm.missing d (regionPages va size)).card →
    ∃ s', bootMapRegion s (some d) va size pa perm = .ok s' ∧
      ∀ q < 2 ^ 20, q ∉ regionPages va size → s'.mm.entry d q = s.mm.entry d q := by
  intro hall
  have hsize : (0x1000 : BitVec 32).toNat / pgSize = 1 := by decide
  have hone : ∀ q ∈ regionPages kernBase 0x1000, q = 983040 := by
    intro q hq
    have hin := Finset.mem_Ico.1 hq
    rw [vpn_kernBase, hsize] at hin
    omega
  have hfill : bootState.mm.Fillable 1 (regionPages kernBase 0x1000) :=
    bootState_fillable fun q hq => by
    rw [hone q hq]
    decide
  have he : FramesLeft bootState.mm bootFrames (bootState.mm.missing 1
      (regionPages kernBase 0x1000)).card := bootState_enough fun q hq => by
    rw [hone q hq]
    decide
  obtain ⟨s', hrun, hsame⟩ := hall bootState 1 bootFrames kernBase 0x1000 0 pteW
    bootState_dir (by decide) (by decide) (by decide) (by decide)
    (by decide) (by decide) (by decide) hfill he
  obtain ⟨s'', l', hrun', hmaps⟩ := bootMapRegion_maps kernBase 0x1000 0 pteW
    (fun _ => page2pa 0 ||| (pteW ||| pteP)) bootState_dir hfill he
    (by decide) (by decide) (by rw [vpn_kernBase, hsize]; decide) (by decide) (by decide) (by
      intro k hk
      rw [hsize] at hk
      obtain rfl : k = 0 := by omega
      rfl)
  obtain rfl : s' = s'' := Except.ok.inj (hrun.symm.trans hrun')
  have hmem : 983040 ∈ regionPages kernBase 0x1000 := by
    refine Finset.mem_Ico.2 ⟨by decide, ?_⟩
    rw [vpn_kernBase, hsize]
    decide
  -- the page of the window that shows the slot of `KERNBASE`
  refine window_changes hmaps hmem (by decide) (q := 957 * 1024 + 960) (by decide) (by decide) ?_ ?_
    (hsame (957 * 1024 + 960) (by decide) fun hc => ?_)
  · have hdiv : (957 * 1024 + 960) / 1024 = 957 := by decide
    rw [PtInv.Window, hdiv, bootState_window]
    decide
  · rw [bootState_absent (by decide)]
    decide
  · exact absurd (hone _ hc) (by decide)

end Jos
