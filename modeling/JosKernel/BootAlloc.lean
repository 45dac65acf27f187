/-
**Memory at boot.**

Until the free list exists, `boot_alloc` of `kern/pmap.c` hands out memory by moving `nextfree`, and
`page_init` then puts on the free list what nobody uses. The number of pages `boot_alloc` reserves
comes from a test the wrong way around: it asks whether the request divides the page size, not
whether the page size divides the request. For the sizes 1, 2, 4, …, 2048 it reserves nothing, so
two such requests get the same address. `is_allocated_init`, for its part, says that the page the
other processors start from is free.

A bump allocator keeps one pointer and answers a request with the address the pointer had before it
was moved. The regions it has handed out are then stacked below the pointer: each ends at or below
it, and two of them never overlap. Nothing is ever given back, so the list of regions only grows.

Main definitions:

* `Bump.Apart`, `Bump.Stacked` — regions that do not overlap, and regions that lie between two
  bounds;
* `Jos.bootAlloc` — `boot_alloc`, with its static variable as an argument;
* `Jos.BootHeap`, `Jos.bootStep` — the calls made at boot, with the regions they were answered with;
* `Jos.BootFits` — the request reserves pages and does not run over the end of the address space;
* `Jos.UsedAtBoot` — the frames that are in use when `page_init` runs.

Main results:

* `Bump.Stacked.push` — a region between the pointer and its new value goes on top of the others;
* `Jos.boot_regions_disjoint` — when all requests fit, the regions do not overlap;
* `Jos.page_init_list` — the free list after `page_init`, frame by frame.
-/

import JosKernel.FrameAllocRun

set_option relaxedAutoImplicit false
set_option autoImplicit false

/-! ### Regions handed out by moving a pointer upwards -/

namespace Bump

/-- The regions `[r.1, r.1 + r.2)` and `[q.1, q.1 + q.2)` do not overlap. -/
def Apart (r q : ℕ × ℕ) : Prop := r.1 + r.2 ≤ q.1 ∨ q.1 + q.2 ≤ r.1

instance (r q : ℕ × ℕ) : Decidable (Apart r q) := instDecidableOr

/-- **Regions between `low` and `top` that do not overlap.** -/
structure Stacked (low top : ℕ) (rs : List (ℕ × ℕ)) : Prop where
  above : ∀ r ∈ rs, low ≤ r.1
  below : ∀ r ∈ rs, r.1 + r.2 ≤ top
  apart : rs.Pairwise Apart

namespace Stacked

variable {low top : ℕ} {rs : List (ℕ × ℕ)}

theorem nil (low top : ℕ) : Stacked low top [] :=
  ⟨by simp, by simp, List.Pairwise.nil⟩

/-- **A region between the pointer and its new value goes on top.** -/
theorem push (h : Stacked low top rs) {a n top' : ℕ} (hlow : low ≤ top) (ha : top ≤ a)
    (hn : a + n ≤ top') :
    Stacked low top' ((a, n) :: rs) where
  above r hr := by
    rcases List.mem_cons.1 hr with rfl | hr
    · exact Nat.le_trans hlow ha
    · exact h.above r hr
  below r hr := by
    rcases List.mem_cons.1 hr with rfl | hr
    · exact hn
    · have hle := h.below r hr
      omega
  apart := by
    refine List.Pairwise.cons (fun r hr => Or.inr ?_) h.apart
    exact Nat.le_trans (h.below r hr) ha

end Stacked

end Bump

namespace Jos

open LinkedList Outcome LabelledRun

/-! ### The allocator -/

/-- `pages_to_alloc`, for a request of `n` bytes. -/
def pagesToAlloc (n : BitVec 32) : BitVec 32 :=
  if BitVec.ofNat 32 pgSize % n ≠ 0 then n / BitVec.ofNat 32 pgSize + 1
    else n / BitVec.ofNat 32 pgSize

/-- `nextfree` once it is initialised; `end` is where the linker put the end of the kernel. -/
def nextFree (kernEnd nextfree : BitVec 32) : BitVec 32 :=
  if nextfree = 0 then roundUp kernEnd (BitVec.ofNat 32 pgSize) else nextfree

/-- **`boot_alloc(n)`**: the address it returns and the new `nextfree`, which is `NULL` before the
first call. -/
def bootAlloc (npages : ℕ) (kernEnd nextfree n : BitVec 32) :
    Except Crash (BitVec 32 × BitVec 32) :=
  let nextfree := nextFree kernEnd nextfree
  if n = 0 then pure (nextfree, nextfree)
  else
    let result := nextfree
    let nextfree := nextfree + BitVec.ofNat 32 pgSize * pagesToAlloc n
    if BitVec.ofNat 32 npages * BitVec.ofNat 32 pgSize + kernBase < nextfree then
      throw (.panic "BOOT ALLOCATOR: OUT OF MEMORY BITCH")
    else pure (result, nextfree)

/-! ### The calls made at boot -/

/-- `nextfree`, and the address and size of every region handed out. -/
structure BootHeap where
  nextfree : BitVec 32
  regions : List (ℕ × ℕ)
  deriving DecidableEq, Repr

/-- A call that returns. -/
def bootStep (npages : ℕ) (kernEnd : BitVec 32) (s : BootHeap) (n : BitVec 32) (t : BootHeap) :
    Prop :=
  ∃ r nf, bootAlloc npages kernEnd s.nextfree n = Except.ok (r, nf) ∧
    t = ⟨nf, if n = 0 then s.regions else (r.toNat, n.toNat) :: s.regions⟩

/-- What callers rely on: the regions are page-aligned, lie in memory and do not overlap, and the
next free address is page-aligned and behind all of them. -/
structure BootSafe (npages : ℕ) (kernEnd : BitVec 32) (s : BootHeap) : Prop where
  aligned : ∀ r ∈ s.regions, pgSize ∣ r.1
  below : ∀ r ∈ s.regions, r.1 + r.2 ≤ npages * pgSize + kernBase.toNat
  apart : s.regions.Pairwise Bump.Apart
  next : ∀ r nf, bootAlloc npages kernEnd s.nextfree 0 = Except.ok (r, nf) →
    pgSize ∣ r.toNat ∧ ∀ q ∈ s.regions, q.1 + q.2 ≤ r.toNat

/-- The pages that hold `n` bytes: one if they fill it, otherwise one more than they fill. -/
def pagesFor (n : ℕ) : ℕ := if n = pgSize then 1 else n / pgSize + 1

/-- **The request is one `boot_alloc` has pages for**: it is not a proper divisor of the page size,
and `nextfree` does not pass the end of the address space. -/
def BootFits (kernEnd : BitVec 32) (s : BootHeap) (n : BitVec 32) : Prop :=
  n = 0 ∨ ¬ (n.toNat ∣ pgSize ∧ n.toNat < pgSize) ∧
    (nextFree kernEnd s.nextfree).toNat + pgSize * pagesFor n.toNat < 2 ^ 32

theorem toNat_pgSize : (BitVec.ofNat 32 pgSize).toNat = 4096 := rfl

/-- `pages_to_alloc` for a request that is not a proper divisor of the page size. -/
theorem toNat_pagesToAlloc {n : BitVec 32} (hn : n ≠ 0)
    (hdiv : ¬ (n.toNat ∣ pgSize ∧ n.toNat < pgSize)) :
    (pagesToAlloc n).toNat = pagesFor n.toNat := by
  have hlt := n.isLt
  have hpos : 0 < n.toNat := Nat.pos_of_ne_zero fun h0 => hn (BitVec.eq_of_toNat_eq h0)
  have hmod : BitVec.ofNat 32 pgSize % n = 0 ↔ n.toNat ∣ pgSize := by
    rw [Nat.dvd_iff_mod_eq_zero, ← BitVec.toNat_inj, BitVec.toNat_umod]
    rfl
  have hquot : (n / BitVec.ofNat 32 pgSize).toNat = n.toNat / 4096 := by
    rw [BitVec.toNat_udiv, toNat_pgSize]
  rw [pagesToAlloc, pagesFor]
  by_cases hsize : n.toNat = pgSize
  · have hzero : BitVec.ofNat 32 pgSize % n = 0 := hmod.2 (hsize ▸ Nat.dvd_refl _)
    rw [if_neg (not_not_intro hzero), if_pos hsize, hquot, hsize]
    rfl
  · have hne : ¬ n.toNat ∣ pgSize := by
      intro hd
      have hle := Nat.le_of_dvd (by decide) hd
      exact hdiv ⟨hd, by omega⟩
    have hone : BitVec.toNat (1 : BitVec 32) = 1 := rfl
    rw [if_pos fun h0 => hne (hmod.1 h0), if_neg hsize, BitVec.toNat_add, hquot, hone, pgSize,
      Nat.mod_eq_of_lt (by omega)]

/-- The pages reserved are enough for the request. -/
theorem le_pagesFor (n : ℕ) : n ≤ pgSize * pagesFor n := by
  rw [pagesFor, pgSize]
  split <;> omega

theorem pagesFor_pos (n : ℕ) : 0 < pagesFor n := by
  rw [pagesFor]
  split
  · exact Nat.one_pos
  · exact Nat.succ_pos _

/-- **A request that fits and is granted** is answered with `nextfree`, which moves by whole pages
and stays in memory. -/
theorem bootAlloc_granted {npages : ℕ} {kernEnd n r nf : BitVec 32} {s : BootHeap} (hn : n ≠ 0)
    (hfit : BootFits kernEnd s n)
    (hcall : bootAlloc npages kernEnd s.nextfree n = Except.ok (r, nf)) :
    r = nextFree kernEnd s.nextfree ∧ nf.toNat = r.toNat + pgSize * pagesFor n.toNat ∧
      nf.toNat ≤ npages * pgSize + kernBase.toNat := by
  obtain ⟨hdiv, hroom⟩ := hfit.resolve_left hn
  rw [bootAlloc] at hcall
  generalize hcur : nextFree kernEnd s.nextfree = cur at hcall hroom
  dsimp only at hcall
  rw [if_neg hn] at hcall
  generalize hnf : cur + BitVec.ofNat 32 pgSize * pagesToAlloc n = nf' at hcall
  have hnext : nf'.toNat = cur.toNat + pgSize * pagesFor n.toNat := by
    have hsize : pgSize = 4096 := rfl
    rw [hsize] at hroom
    rw [← hnf, BitVec.toNat_add, BitVec.toNat_mul, toNat_pagesToAlloc hn hdiv, toNat_pgSize, hsize]
    omega
  split at hcall
  · exact nomatch hcall
  · rename_i hlim
    obtain ⟨rfl, rfl⟩ := Prod.mk.inj (Except.ok.inj hcall)
    refine ⟨rfl, hnext, ?_⟩
    rw [BitVec.not_lt, BitVec.le_def, BitVec.toNat_add, BitVec.toNat_mul, BitVec.toNat_ofNat,
      toNat_pgSize] at hlim
    have h₁ := Nat.mod_le (npages % 2 ^ 32 * 4096 % 2 ^ 32 + kernBase.toNat) (2 ^ 32)
    have h₂ := Nat.mod_le (npages % 2 ^ 32 * 4096) (2 ^ 32)
    have h₃ := Nat.mul_le_mul_right 4096 (Nat.mod_le npages (2 ^ 32))
    rw [pgSize]
    omega

/-- `boot_alloc(0)` initialises `nextfree`, if that is still to be done, and returns it. -/
theorem bootAlloc_zero {npages : ℕ} {kernEnd nextfree r nf : BitVec 32}
    (hcall : bootAlloc npages kernEnd nextfree 0 = Except.ok (r, nf)) :
    r = nextFree kernEnd nextfree ∧ nf = nextFree kernEnd nextfree := by
  rw [bootAlloc, if_pos rfl] at hcall
  obtain ⟨rfl, rfl⟩ := Prod.mk.inj (Except.ok.inj hcall)
  exact ⟨rfl, rfl⟩

/-! ### The regions -/

/-- The regions handed out are stacked below `nextfree`. -/
structure BootInv (npages : ℕ) (kernEnd : BitVec 32) (s : BootHeap) : Prop where
  fresh : s.nextfree = 0 → s.regions = []
  cursor : pgSize ∣ (nextFree kernEnd s.nextfree).toNat
  aligned : ∀ r ∈ s.regions, pgSize ∣ r.1
  below : ∀ r ∈ s.regions, r.1 + r.2 ≤ npages * pgSize + kernBase.toNat
  stacked : Bump.Stacked 0 (nextFree kernEnd s.nextfree).toNat s.regions

theorem pgSize_dvd_roundUp (a : BitVec 32) :
    pgSize ∣ (roundUp a (BitVec.ofNat 32 pgSize)).toNat := by
  rw [roundUp, roundDown]
  generalize a + BitVec.ofNat 32 pgSize - 1 = x
  have hle : (x % BitVec.ofNat 32 pgSize).toNat ≤ x.toNat := by
    rw [BitVec.toNat_umod]
    exact Nat.mod_le _ _
  rw [BitVec.toNat_sub_of_le hle, BitVec.toNat_umod, toNat_pgSize]
  exact Nat.dvd_sub_mod _

/-- Looking at `nextfree` twice is looking at it once. -/
theorem nextFree_idem (kernEnd nextfree : BitVec 32) :
    nextFree kernEnd (nextFree kernEnd nextfree) = nextFree kernEnd nextfree := by
  by_cases h : nextFree kernEnd nextfree = 0
  · rw [h, nextFree, if_pos rfl]
    by_cases h' : nextfree = 0
    · rw [nextFree, if_pos h'] at h
      exact h
    · rw [nextFree, if_neg h'] at h
      exact absurd h h'
  · exact if_neg h

theorem bootInv_start (npages : ℕ) (kernEnd : BitVec 32) : BootInv npages kernEnd ⟨0, []⟩ where
  fresh := fun _ => rfl
  cursor := pgSize_dvd_roundUp kernEnd
  aligned := by simp
  below := by simp
  stacked := Bump.Stacked.nil _ _

/-- **One call** keeps the regions stacked. -/
theorem BootInv.step {npages : ℕ} {kernEnd n : BitVec 32} {s t : BootHeap}
    (h : BootInv npages kernEnd s) (hfit : BootFits kernEnd s n)
    (hst : bootStep npages kernEnd s n t) : BootInv npages kernEnd t := by
  obtain ⟨r, nf, hcall, rfl⟩ := hst
  by_cases hn : n = 0
  · rw [if_pos hn]
    subst hn
    obtain ⟨-, rfl⟩ := bootAlloc_zero hcall
    have hsame := nextFree_idem kernEnd s.nextfree
    refine
      { fresh := fun h0 => h.fresh ?_, cursor := by rw [hsame]; exact h.cursor,
        aligned := h.aligned, below := h.below,
        stacked := by rw [hsame]; exact h.stacked }
    by_contra hne
    exact hne ((if_neg hne : nextFree kernEnd s.nextfree = s.nextfree) ▸ h0)
  · rw [if_neg hn]
    obtain ⟨rfl, hnext, hmem⟩ := bootAlloc_granted hn hfit hcall
    have hroom := le_pagesFor n.toNat
    have hpos : 0 < pgSize * pagesFor n.toNat := Nat.mul_pos (by decide) (pagesFor_pos _)
    have hne : nf ≠ 0 := by
      rintro rfl
      change 0 = _ at hnext
      omega
    have hnow : nextFree kernEnd nf = nf := if_neg hne
    refine { fresh := fun h0 => absurd h0 hne, cursor := ?_, aligned := ?_, below := ?_,
             stacked := ?_ }
    · rw [hnow, hnext]
      exact (Nat.dvd_add_right h.cursor).2 (Nat.dvd_mul_right _ _)
    · intro q hq
      rcases List.mem_cons.1 hq with rfl | hq
      · exact h.cursor
      · exact h.aligned q hq
    · intro q hq
      rcases List.mem_cons.1 hq with rfl | hq
      · change (nextFree kernEnd s.nextfree).toNat + n.toNat ≤ _
        omega
      · exact h.below q hq
    · rw [hnow, hnext]
      exact h.stacked.push (Nat.zero_le _) (Nat.le_refl _) (by omega)

theorem BootInv.safe {npages : ℕ} {kernEnd : BitVec 32} {s : BootHeap}
    (h : BootInv npages kernEnd s) :
    BootSafe npages kernEnd s where
  aligned := h.aligned
  below := h.below
  apart := h.stacked.apart
  next r nf hcall := by
    obtain ⟨rfl, -⟩ := bootAlloc_zero hcall
    exact ⟨h.cursor, h.stacked.below⟩

/-- **Boot allocations.** In every run of calls whose requests all fit, the regions are disjoint and
lie in memory, and the next free address is behind them. -/
theorem boot_regions_disjoint {npages : ℕ} {kernEnd : BitVec 32} {t : BootHeap}
    {tr : List (BootHeap × BitVec 32)} (hrun : Run (bootStep npages kernEnd) ⟨0, []⟩ tr t)
    (hfits : Meets (BootFits kernEnd) tr) :
    BootSafe npages kernEnd t :=
  (hrun.invariant (fun _ _ _ h hfit hst => h.step hfit hst)
    (bootInv_start npages kernEnd) hfits).safe

/-- The kernel ends at 1 MB + 64 KB and asks for a page directory and for 5000 bytes. -/
theorem boot_regions_disjoint_two : ∃ (t : BootHeap) (tr : List (BootHeap × BitVec 32)),
    Run (bootStep 1024 0xf0110000#32) ⟨0, []⟩ tr t ∧
      t.regions = [(0xf0111000, 5000), (0xf0110000, 4096)] ∧
      BootSafe 1024 0xf0110000#32 t := by
  have h₁ : bootStep 1024 0xf0110000#32 ⟨0, []⟩ 4096#32 ⟨0xf0111000#32, [(0xf0110000, 4096)]⟩ :=
    ⟨0xf0110000#32, 0xf0111000#32, by decide, by decide⟩
  have h₂ : bootStep 1024 0xf0110000#32 ⟨0xf0111000#32, [(0xf0110000, 4096)]⟩ 5000#32
      ⟨0xf0113000#32, [(0xf0111000, 5000), (0xf0110000, 4096)]⟩ :=
    ⟨0xf0111000#32, 0xf0113000#32, by decide, by decide⟩
  have hnil : Run (bootStep 1024 0xf0110000#32) ⟨0, []⟩ [] ⟨0, []⟩ := Run.nil _
  have hrun := (hnil.snoc h₁).snoc h₂
  refine ⟨_, _, hrun, rfl, boot_regions_disjoint hrun fun p hp => ?_⟩
  rcases List.mem_append.1 hp with hp | hp
  · obtain rfl := List.mem_singleton.1 hp
    exact Or.inr ⟨by decide, by decide⟩
  · obtain rfl := List.mem_singleton.1 hp
    exact Or.inr ⟨by decide, by decide⟩

/-- **Two requests for one byte get the same address.** -/
theorem boot_regions_overlap : ∃ (t : BootHeap) (tr : List (BootHeap × BitVec 32)),
    Run (bootStep 1024 0xf0110000#32) ⟨0, []⟩ tr t ∧ tr.map Prod.snd = [1#32, 1#32] ∧
      t.regions = [(0xf0110000, 1), (0xf0110000, 1)] ∧ ¬ BootSafe 1024 0xf0110000#32 t := by
  have h₁ : bootStep 1024 0xf0110000#32 ⟨0, []⟩ 1#32 ⟨0xf0110000#32, [(0xf0110000, 1)]⟩ :=
    ⟨0xf0110000#32, 0xf0110000#32, by decide, by decide⟩
  have h₂ : bootStep 1024 0xf0110000#32 ⟨0xf0110000#32, [(0xf0110000, 1)]⟩ 1#32
      ⟨0xf0110000#32, [(0xf0110000, 1), (0xf0110000, 1)]⟩ :=
    ⟨0xf0110000#32, 0xf0110000#32, by decide, by decide⟩
  refine ⟨_, _, ((Run.nil _).snoc h₁).snoc h₂, rfl, rfl, fun h => ?_⟩
  exact absurd h.apart (by decide)

/-! ### The free list after `page_init` -/

-- Where `boot_aps()` puts the code the other processors start with.
def mpEntryPaddr : ℕ := 0x7000

/-- The frames `page_init()` keeps off the list: frame 0, the tasklets and the zswap pages; the I/O
hole; and what the kernel occupies up to `PADDR(boot_alloc(0))`. -/
def UsedAtBoot (kernTop : BitVec 32) (i : ℕ) : Prop :=
  i < resPgs + cprLruSz ∨ ioPhysMem.toNat ≤ i * pgSize ∧ i * pgSize < extPhysMem.toNat ∨
    extPhysMem.toNat ≤ i * pgSize ∧ i * pgSize < kernTop.toNat

/-- **The free list is what `page_init()` promises**, when `used` says which frames are in use: it
holds no frame twice and none that is in use, and every other frame the loop of `page_init()` gets
to is on it. -/
def ListsUnused (s : Mm) (used : ℕ → Prop) : Prop :=
  ∃ l, Chain s.link s.pageFreeList l ∧ l.Nodup ∧ (∀ i ∈ l, ¬ used i) ∧
    ∀ i < s.npages - pgSize / sizeofPageInfo, ¬ used i → i ∈ l

/-- The list after the loop of `page_init()` has come to frame `n`. -/
structure ListedUpTo (npagesBasemem : ℕ) (bootEnd : BitVec 32) (s : Mm) (l : List ℕ) (n : ℕ) :
    Prop where
  chain : Chain s.link s.pageFreeList l
  mem_iff : ∀ i, i ∈ l ↔ 3 ≤ i ∧ i < n ∧ isAllocatedInit npagesBasemem bootEnd i = Except.ok false
  answered : ∀ i, 3 ≤ i → i < n → ∃ used, isAllocatedInit npagesBasemem bootEnd i = Except.ok used

/-- One round: the frame goes on the list, or it is marked. -/
theorem ListedUpTo.round {npagesBasemem : ℕ} {bootEnd : BitVec 32} {s : Mm} {l : List ℕ} {n : ℕ}
    (h : ListedUpTo npagesBasemem bootEnd s l n) (hn : 3 ≤ n) :
    Ends (fun c => isAllocatedInit npagesBasemem bootEnd n = Except.error c)
      (fun s' => s'.npages = s.npages ∧ ∃ l', ListedUpTo npagesBasemem bootEnd s' l' (n + 1))
      (pageInitRound npagesBasemem bootEnd s n) := by
  have hfresh : n ∉ l := fun hmem => absurd ((h.mem_iff n).1 hmem).2.1 (Nat.lt_irrefl n)
  have hkept : ∀ f : PageInfo → PageInfo, Chain (s.modPage n f).link s.pageFreeList l := by
    intro f
    refine h.chain.congr fun i hi => ?_
    rw [Mm.link, Mm.modPage_of_ne _ _ (by rintro rfl; exact hfresh hi)]
    rfl
  unfold pageInitRound
  dsimp only
  rw [ends_bind]
  cases hused : isAllocatedInit npagesBasemem bootEnd n with
  | error c => rfl
  | ok used =>
      have hanswer : ∀ i, 3 ≤ i → i < n + 1 → ∃ used, isAllocatedInit npagesBasemem bootEnd i =
          Except.ok used := by
        intro i hi hin
        by_cases heq : i = n
        · exact ⟨used, heq ▸ hused⟩
        · exact h.answered i hi (by omega)
      rw [ends_ok, ends_pure]
      cases used with
      | true =>
          rw [if_pos rfl, Mm.modPage_modPage]
          refine ⟨rfl, l, hkept _, fun i =>
            (h.mem_iff i).trans ⟨fun hi => ⟨hi.1, by omega, hi.2.2⟩, fun hi => ?_⟩, hanswer⟩
          refine ⟨hi.1, ?_, hi.2.2⟩
          have hne : i ≠ n := by
            rintro rfl
            exact absurd (hused.symm.trans hi.2.2) (by simp)
          omega
      | false =>
          rw [if_neg Bool.false_ne_true]
          refine ⟨rfl, n :: l, addHeadPfl_chain (hkept _) hfresh, fun i => ?_, hanswer⟩
          rw [List.mem_cons, h.mem_iff]
          constructor
          · rintro (rfl | ⟨hi, hin, hno⟩)
            · exact ⟨hn, Nat.lt_succ_self _, hused⟩
            · exact ⟨hi, by omega, hno⟩
          · rintro ⟨hi, hin, hno⟩
            by_cases heq : i = n
            · exact Or.inl heq
            · exact Or.inr ⟨hi, by omega, hno⟩

/-- What `is_allocated_init` answers: below the end of base memory it looks no further. -/
theorem isAllocatedInit_eq {npagesBasemem : ℕ} (hbase : npagesBasemem ≤ 160) (bootEnd : BitVec 32)
    {i : ℕ} (hi : i < 2 ^ 20) :
    isAllocatedInit npagesBasemem bootEnd i =
      if i < npagesBasemem then Except.ok false
      else if 160 ≤ i ∧ i < 256 then Except.ok true
      else if 256 ≤ i then paddr bootEnd >>= fun kernTop => pure (decide (i * 4096 < kernTop.toNat))
      else Except.ok false := by
  have hpa : (page2pa i).toNat = i * 4096 := by
    rw [page2pa, BitVec.toNat_shiftLeft, BitVec.toNat_ofNat, Nat.shiftLeft_eq, pgShift]
    omega
  have hlow : page2pa i < BitVec.ofNat 32 (npagesBasemem * pgSize) ↔ i < npagesBasemem := by
    rw [BitVec.lt_def, hpa, BitVec.toNat_ofNat, pgSize, Nat.mod_eq_of_lt (by omega)]
    omega
  have hio : ioPhysMem ≤ page2pa i ↔ 160 ≤ i := by
    have hval : ioPhysMem.toNat = 160 * 4096 := rfl
    rw [BitVec.le_def, hpa, hval]
    omega
  have hext : extPhysMem ≤ page2pa i ↔ 256 ≤ i := by
    have hval : extPhysMem.toNat = 256 * 4096 := rfl
    rw [BitVec.le_def, hpa, hval]
    omega
  have hlt : page2pa i < extPhysMem ↔ i < 256 := by
    rw [← BitVec.not_le, hext, Nat.not_le]
  have hkern : ∀ kernTop : BitVec 32, decide (page2pa i < kernTop) =
      decide (i * 4096 < kernTop.toNat) := by
    intro kernTop
    exact decide_eq_decide.2 (by rw [BitVec.lt_def, hpa])
  rw [isAllocatedInit]
  by_cases hb : i < npagesBasemem
  · rw [if_pos (hlow.2 hb), if_pos hb]
    rfl
  rw [if_neg fun h => hb (hlow.1 h), if_neg hb]
  by_cases hh : 160 ≤ i ∧ i < 256
  · rw [if_pos ⟨hio.2 hh.1, hlt.2 hh.2⟩, if_pos hh]
    rfl
  rw [if_neg fun h => hh ⟨hio.1 h.1, hlt.1 h.2⟩, if_neg hh]
  by_cases he : 256 ≤ i
  · rw [if_pos (hext.2 he), if_pos he]
    exact bind_congr fun kernTop => congrArg pure (hkern kernTop)
  · rw [if_neg fun h => he (hext.1 h), if_neg he]
    rfl

/-- The frames for which `is_allocated_init` answers that they are free. -/
theorem isAllocatedInit_free {npagesBasemem : ℕ} (hbase : npagesBasemem ≤ 160)
    {bootEnd kernTop : BitVec 32} (htop : paddr bootEnd = Except.ok kernTop) {i : ℕ}
    (hi : i < 2 ^ 20) (hlow : 3 ≤ i) :
    isAllocatedInit npagesBasemem bootEnd i = Except.ok false ↔ ¬ UsedAtBoot kernTop i := by
  have hio : ioPhysMem.toNat = 160 * 4096 := rfl
  have hext : extPhysMem.toNat = 256 * 4096 := rfl
  have hres : resPgs + cprLruSz = 3 := by decide
  rw [isAllocatedInit_eq hbase bootEnd hi, htop, UsedAtBoot, hio, hext, hres, pgSize]
  change (if _ then _ else if _ then _ else if _ then Except.ok (decide _) else _) = _ ↔ _
  split
  · exact ⟨fun _ => by omega, fun _ => rfl⟩
  split
  · exact ⟨fun h => absurd h (by simp), fun h => absurd h (by omega)⟩
  split
  · rw [Except.ok.injEq, decide_eq_false_iff_not]
    omega
  · exact ⟨fun _ => by omega, fun _ => rfl⟩

/-- The loop of `page_init`, from a state without free frames. -/
theorem Blank.listed {s₀ : Mm} (h : Blank s₀) (npagesBasemem : ℕ) (bootEnd : BitVec 32) (n : ℕ) :
    Ends (fun c => ∃ k < n, isAllocatedInit npagesBasemem bootEnd (3 + k) = Except.error c)
      (fun s => s.npages = s₀.npages ∧ ∃ l, ListedUpTo npagesBasemem bootEnd s l (3 + n))
      ((List.range' 3 n).foldlM (pageInitRound npagesBasemem bootEnd) s₀) := by
  refine ends_foldlM_range' (P := fun k s => s.npages = s₀.npages ∧ ∃ l,
    ListedUpTo npagesBasemem bootEnd s l (3 + k))
    ⟨rfl, [], h.pageFreeList, fun i => ?_, fun i hi hi' => absurd hi (by omega)⟩ ?_
  · simp only [List.not_mem_nil, false_iff]
    omega
  · rintro k hk s ⟨hnp, l, hl⟩
    refine (hl.round (by omega)).mono (fun c hc => ⟨k, hk, hc⟩) ?_
    rintro s' ⟨hnp', hl'⟩
    exact ⟨hnp'.trans hnp, hl'⟩

/-- The list `page_init` leaves behind, when `PADDR` accepts the end of the kernel. -/
theorem pageInit_listed {npages npagesBasemem : ℕ} {hnp : npages ≤ 2 ^ 20} {premapped : Bool}
    {mem : ℕ → ℕ → BitVec 8} {bootEnd : BitVec 32} {x : Except Crash Mm}
    (hbase : npagesBasemem ≤ 160) (hbig : 512 < npages)
    (hx : pageInit npagesBasemem bootEnd (Mm.boot npages hnp premapped mem) = x) :
    Ends (fun c => paddr bootEnd = Except.error c)
      (fun s => s.npages = npages ∧ ∃ kernTop l, paddr bootEnd = Except.ok kernTop ∧
        Chain s.link s.pageFreeList l ∧
        ∀ i, i ∈ l ↔ 3 ≤ i ∧ i < npages - 256 ∧ ¬ UsedAtBoot kernTop i) x := by
  have hboot : Blank (Mm.boot npages hnp premapped mem) := ⟨rfl, rfl, fun _ => ⟨rfl, rfl, rfl⟩⟩
  have hlru := (hboot.modPage 0 (f := PageInfo.reset) ⟨rfl, rfl, rfl⟩).lruInit
  have hres : List.range' 1 (resPgs - 2) = [] := by decide
  have htail : pgSize / sizeofPageInfo = 256 := by decide
  have hfirst : resPgs + cprLruSz = 3 := by decide
  have hend : 3 + (npages - 256 - 3) = npages - 256 := by omega
  rw [← hx, pageInit, hres, List.foldl_nil, htail, hfirst, hlru.2.1]
  refine (hlru.1.listed npagesBasemem bootEnd _).mono ?_ ?_
  · rintro c ⟨k, hk, hc⟩
    change k < npages - 256 - 3 at hk
    rw [isAllocatedInit_eq hbase bootEnd (by omega)] at hc
    split at hc
    · cases hc
    split at hc
    · cases hc
    split at hc
    · cases htop : paddr bootEnd with
      | error c' =>
          rw [htop] at hc
          exact congrArg Except.error (Except.error.inj hc)
      | ok kernTop =>
          rw [htop] at hc
          cases hc
    · cases hc
  · rintro s ⟨hnpages, l, hl⟩
    change ListedUpTo npagesBasemem bootEnd s l (3 + (npages - 256 - 3)) at hl
    rw [hend] at hl
    refine ⟨hnpages.trans hlru.2.1, ?_⟩
    -- the first frame of extended memory is looked up against the end of the kernel
    obtain ⟨used, hused⟩ := hl.answered 256 (by omega) (by omega)
    cases htop : paddr bootEnd with
    | error c =>
        rw [isAllocatedInit_eq hbase bootEnd (by omega), htop, if_neg (by omega), if_neg (by omega),
          if_pos (Nat.le_refl _)] at hused
        cases hused
    | ok kernTop =>
        refine ⟨kernTop, l, rfl, hl.chain, fun i => ?_⟩
        rw [hl.mem_iff]
        refine and_congr_right fun hi => and_congr_right fun hlt => ?_
        exact isAllocatedInit_free hbase htop (by omega) hi

/-- The page at `MPENTRY_PADDR` is below both ends of the I/O hole, so nothing keeps it off the
list. -/
theorem mpEntry_unused (kernTop : BitVec 32) : ¬ UsedAtBoot kernTop 7 := by
  rintro (h | ⟨h, -⟩ | ⟨h, -⟩)
  · exact absurd h (by decide)
  · exact absurd h (by decide)
  · exact absurd h (by decide)

/-- **The free list after `page_init`**: it returns when `PADDR` accepts the end of the kernel, and
the list then holds exactly the frames that are not in use — with the page at `MPENTRY_PADDR` among
them, which `is_allocated_init` calls free in both branches it can take. -/
theorem page_init_list {npages npagesBasemem : ℕ} {hnp : npages ≤ 2 ^ 20} {premapped : Bool}
    {mem : ℕ → ℕ → BitVec 8} {bootEnd : BitVec 32} {x : Except Crash Mm}
    (hbase : npagesBasemem ≤ 160) (hbig : 512 < npages)
    (hx : pageInit npagesBasemem bootEnd (Mm.boot npages hnp premapped mem) = x) :
    Ends (fun c => paddr bootEnd = Except.error c)
      (fun s => ∃ kernTop, paddr bootEnd = Except.ok kernTop ∧ ListsUnused s (UsedAtBoot kernTop) ∧
        ¬ ListsUnused s fun i => UsedAtBoot kernTop i ∨ i * pgSize = mpEntryPaddr) x := by
  refine (pageInit_listed hbase hbig hx).post ?_
  rintro s ⟨hnp', kernTop, l, htop, hchain, hfree⟩
  have htail : pgSize / sizeofPageInfo = 256 := by decide
  have hfirst : resPgs + cprLruSz = 3 := by decide
  refine ⟨kernTop, htop, ⟨l, hchain, hchain.nodup, fun i hi => ((hfree i).1 hi).2.2, fun i hi hun =>
    ?_⟩, ?_⟩
  · rw [hnp', htail] at hi
    refine (hfree i).2 ⟨?_, hi, hun⟩
    by_contra hlow
    exact hun (Or.inl (hfirst ▸ Nat.not_le.1 hlow))
  · rintro ⟨l', hl', -, hclean, -⟩
    have h7 : 7 ∈ l' := by
      rw [hl'.unique hchain, hfree]
      exact ⟨by omega, by omega, mpEntry_unused kernTop⟩
    exact hclean 7 h7 (Or.inr rfl)

/-- A machine of 4 MB whose kernel ends at 2 MB boots with that list. -/
theorem page_init_list_4MB : ∃ s,
    pageInit 160 0xf0200000#32 (Mm.boot 1024 (by decide) true fun _ _ => 0) = Except.ok s ∧
      ListsUnused s (UsedAtBoot 0x200000#32) ∧
      ¬ ListsUnused s fun i => UsedAtBoot 0x200000#32 i ∨ i * pgSize = mpEntryPaddr := by
  generalize hx : pageInit 160 0xf0200000#32 (Mm.boot 1024 (by decide) true fun _ _ => 0) = x
  have hends := page_init_list (by decide) (by decide) hx
  have htop : paddr 0xf0200000#32 = Except.ok 0x200000#32 := by decide
  rw [htop] at hends
  obtain ⟨s, rfl, kernTop, hk, hlist⟩ := hends.exists_ok fun c hc => nomatch hc
  obtain rfl := Except.ok.inj hk
  exact ⟨s, rfl, hlist⟩

/-- **The page the other processors start from is on the free list** of that machine. -/
theorem mpentry_page_listed : ∃ s l,
    pageInit 160 0xf0200000#32 (Mm.boot 1024 (by decide) true fun _ _ => 0) = Except.ok s ∧
      Chain s.link s.pageFreeList l ∧ (∃ i ∈ l, i * pgSize = mpEntryPaddr) ∧
      ¬ ListsUnused s fun i => UsedAtBoot 0x200000#32 i ∨ i * pgSize = mpEntryPaddr := by
  generalize hx : pageInit 160 0xf0200000#32 (Mm.boot 1024 (by decide) true fun _ _ => 0) = x
  have hends := pageInit_listed (by decide) (by decide) hx
  have htop : paddr 0xf0200000#32 = Except.ok 0x200000#32 := by decide
  rw [htop] at hends
  obtain ⟨s, rfl, -, kernTop, l, -, hchain, hfree⟩ := hends.exists_ok fun c hc => nomatch hc
  have h7 : 7 ∈ l := (hfree 7).2 ⟨by decide, by decide, mpEntry_unused kernTop⟩
  refine ⟨s, l, rfl, hchain, ⟨7, h7, rfl⟩, ?_⟩
  rintro ⟨l', hl', -, hclean, -⟩
  rw [hl'.unique hchain] at hclean
  exact hclean 7 h7 (Or.inr rfl)

end Jos
