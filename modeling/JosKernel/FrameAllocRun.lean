/-
**Runs of the frame allocator.**

From the state `page_init` builds, any sequence of calls of `page_alloc` and `page_free` — with
references taken and dropped and `PREMAPPED_FLAG` switched on and off in between — keeps the
partition into free frames, blocks that are out and the rest.  The counter is a different matter:
it follows the list except in one branch of `remove_element_4MB_pfl`, and the number of times that
branch was taken is exactly what it is off by.

Main definitions:

* `Jos.InitInv` — the invariant of the loop of `page_init`;
* `Jos.FrameState`, `Jos.FrameOp`, `Jos.frameStep` — the allocator as a transition system;
* `Jos.FrameSafe` — what is promised of every state;
* `Jos.skips` — how often a run took the branch that forgets the counter.

Main results:

* `Jos.pageInit_ends` — `page_init` establishes the invariant;
* `Jos.frame_allocator_safe` — safety in every state of every run;
* `Jos.counter_drift` — the counter along a run.
-/

import JosKernel.FrameAllocFree
import JosKernel.LabelledRun

set_option relaxedAutoImplicit false
set_option autoImplicit false

namespace Jos

open LinkedList Outcome LabelledRun

/-! ### The initial state -/

/-- **The invariant of the loop of `page_init`**, with `n` the next frame. -/
structure InitInv (npagesBasemem : ℕ) (bootEnd : BitVec 32) (s : Mm) (l : List ℕ) (n : ℕ) :
    Prop where
  chain : Chain s.link s.pageFreeList l
  listed : ∀ i ∈ l, 3 ≤ i ∧ i < n ∧ (s.pages i).pageFlags = 0 ∧ (s.pages i).ppRef = 0
  rest : ∀ i ∉ l, s.link i = none ∧ (s.pages i).ppRef = 0 ∧
    ((s.pages i).pageFlags = 0 ∨ (s.pages i).pageFlags = alloc)
  full : ∀ i, 3 ≤ i → i < n → isAllocatedInit npagesBasemem bootEnd i = Except.ok false → i ∈ l
  hole : 160 < n → (s.pages 160).pageFlags = alloc
  sync : drift s l = 0

/-- No page is linked, referenced or flagged. -/
structure Blank (s : Mm) : Prop where
  pageFreeList : s.pageFreeList = none
  count : s.freePagesCount = 0
  page : ∀ i, s.link i = none ∧ (s.pages i).ppRef = 0 ∧ (s.pages i).pageFlags = 0

theorem Blank.modPage {s : Mm} (h : Blank s) (pp : ℕ) {f : PageInfo → PageInfo}
    (hf : (f (s.pages pp)).ppLink = none ∧ (f (s.pages pp)).ppRef = 0 ∧
      (f (s.pages pp)).pageFlags = 0) : Blank (s.modPage pp f) where
  pageFreeList := h.pageFreeList
  count := h.count
  page i := by
    by_cases hi : i = pp
    · subst hi
      rw [Mm.link, Mm.modPage_self]
      exact hf
    · rw [Mm.link, Mm.modPage_of_ne _ _ hi]
      exact h.page i

/-- The zswap list is threaded through a field of its own. -/
theorem Blank.lruInit {s : Mm} (h : Blank s) :
    Blank (lruInit s) ∧ (Jos.lruInit s).npages = s.npages ∧
      (Jos.lruInit s).premappedFlag = s.premappedFlag := by
  have hstart : Blank { s with lruLists := ⟨none, none, none, none, none, none⟩ } :=
    ⟨h.pageFreeList, h.count, h.page⟩
  unfold Jos.lruInit
  refine List.foldlRecOn (motive := fun t => Blank t ∧ t.npages = s.npages ∧
    t.premappedFlag = s.premappedFlag) (List.range' resPgs cprLruSz) _ ⟨hstart, rfl, rfl⟩ ?_
  intro t ht i _
  obtain ⟨hb, hnp, hpre⟩ := ht
  have hb' : ∀ u : Lru, Blank { t with lruLists := u } :=
    fun u => ⟨hb.pageFreeList, hb.count, hb.page⟩
  dsimp only
  split
  · have hmod := (hb' { t.lruLists with tZswap := some i }).modPage i
      (f := fun p => { p with lruLink := t.lruLists.hZswap }) (hb.page i)
    exact ⟨⟨hmod.pageFreeList, hmod.count, hmod.page⟩, hnp, hpre⟩
  · have hmod := hb.modPage i (f := fun p => { p with lruLink := t.lruLists.hZswap }) (hb.page i)
    exact ⟨⟨hmod.pageFreeList, hmod.count, hmod.page⟩, hnp, hpre⟩

/-- The frames of the I/O hole count as used. -/
theorem isAllocatedInit_hole {npagesBasemem : ℕ} (h : npagesBasemem ≤ 160) (bootEnd : BitVec 32) :
    isAllocatedInit npagesBasemem bootEnd 160 = Except.ok true := by
  have hnot : ¬ page2pa 160 < BitVec.ofNat 32 (npagesBasemem * pgSize) := by
    have hpa : (page2pa 160).toNat = 160 * 4096 := rfl
    rw [BitVec.lt_def, BitVec.toNat_ofNat, hpa, pgSize, Nat.mod_eq_of_lt (by omega)]
    omega
  unfold isAllocatedInit
  dsimp only
  rw [if_neg hnot, if_pos (by decide)]
  rfl

/-- One round of the loop of `page_init`. -/
theorem InitInv.round {npagesBasemem : ℕ} {bootEnd : BitVec 32} {s : Mm} {l : List ℕ} {n : ℕ}
    (h : InitInv npagesBasemem bootEnd s l n) (hn : 3 ≤ n) (hbase : npagesBasemem ≤ 160) :
    Ends (fun c => ∃ i, isAllocatedInit npagesBasemem bootEnd i = Except.error c)
      (fun s' => s'.npages = s.npages ∧ s'.premappedFlag = s.premappedFlag ∧
        ∃ l', InitInv npagesBasemem bootEnd s' l' (n + 1))
      (pageInitRound npagesBasemem bootEnd s n) := by
  have hfresh : n ∉ l := by
    intro hmem
    have hlt := (h.listed n hmem).2.1
    omega
  unfold pageInitRound
  dsimp only
  rw [ends_bind]
  cases hused : isAllocatedInit npagesBasemem bootEnd n with
  | error c => exact ⟨n, hused⟩
  | ok used =>
      rw [ends_ok, ends_pure]
      cases used with
      | true =>
          rw [if_pos rfl, Mm.modPage_modPage]
          refine ⟨rfl, rfl, l, ?_⟩
          have hpage : ∀ i ∈ l, ((s.modPage n fun p => PageInfo.set alloc p.reset).pages i) =
              s.pages i := by
            intro i hi
            refine Mm.modPage_of_ne _ _ ?_
            rintro rfl
            exact hfresh hi
          refine
            { chain := ?_, listed := ?_, rest := ?_, full := ?_, hole := ?_, sync := h.sync }
          · refine h.chain.congr fun i hi => ?_
            rw [Mm.link, hpage i hi]
            rfl
          · intro i hi
            rw [hpage i hi]
            obtain ⟨h₁, h₂, h₃⟩ := h.listed i hi
            exact ⟨h₁, by omega, h₃⟩
          · intro i hi
            by_cases hin : i = n
            · subst hin
              rw [Mm.link, Mm.modPage_self]
              exact ⟨rfl, rfl, Or.inr (by simp [PageInfo.set, PageInfo.reset])⟩
            · rw [Mm.link, Mm.modPage_of_ne _ _ hin]
              exact h.rest i hi
          · intro i hi hin hno
            by_cases heq : i = n
            · rw [heq, hused] at hno
              exact absurd hno (by simp)
            · exact h.full i hi (by omega) hno
          · intro hlt
            by_cases h160 : 160 = n
            · rw [← h160, Mm.modPage_self]
              simp [PageInfo.set, PageInfo.reset]
            · rw [Mm.modPage_of_ne _ _ h160]
              exact h.hole (by omega)
      | false =>
          rw [if_neg (by simp)]
          have h160 : 160 ≠ n := by
            intro h160
            rw [← h160, isAllocatedInit_hole hbase] at hused
            exact absurd hused (by simp)
          have hchain : Chain (s.modPage n PageInfo.reset).link s.pageFreeList l := by
            refine h.chain.congr fun i hi => ?_
            rw [Mm.link, Mm.modPage_of_ne _ _ (by rintro rfl; exact hfresh hi)]
            rfl
          have hframe : ∀ i ≠ n, (addHeadPfl (s.modPage n PageInfo.reset) n).pages i =
              s.pages i := by
            intro i hi
            rw [addHeadPfl_of_ne _ hi, Mm.modPage_of_ne _ _ hi]
          refine ⟨rfl, rfl, n :: l, ?_⟩
          refine
            { chain := addHeadPfl_chain hchain hfresh, listed := ?_, rest := ?_, full := ?_,
              hole := ?_, sync := ?_ }
          · intro i hi
            by_cases hin : i = n
            · subst hin
              rw [addHeadPfl_self]
              exact ⟨hn, by omega, rfl, rfl⟩
            · rw [hframe i hin]
              obtain ⟨h₁, h₂, h₃⟩ := h.listed i ((List.mem_cons.1 hi).resolve_left hin)
              exact ⟨h₁, by omega, h₃⟩
          · intro i hi
            rw [List.mem_cons, not_or] at hi
            rw [Mm.link, hframe i hi.1]
            exact h.rest i hi.2
          · intro i hi hin hno
            by_cases heq : i = n
            · simp [heq]
            · exact List.mem_cons_of_mem _ (h.full i hi (by omega) hno)
          · intro hlt
            rw [hframe 160 h160]
            exact h.hole (by omega)
          · have hex := h.sync
            rw [drift] at hex ⊢
            rw [List.length_cons, BitVec.ofNat_add]
            change s.freePagesCount + 1 - _ = 0
            bv_omega

/-- `is_allocated_init` returns: the end of the kernel is a kernel address `PADDR` accepts. -/
def BootEndOk (npagesBasemem : ℕ) (bootEnd : BitVec 32) : Prop :=
  ∀ i c, isAllocatedInit npagesBasemem bootEnd i ≠ Except.error c

/-- The loop of `page_init` over any number of frames. -/
theorem Blank.loop {s₀ : Mm} (h : Blank s₀) {npagesBasemem : ℕ} (hbase : npagesBasemem ≤ 160)
    (bootEnd : BitVec 32) (n : ℕ) :
    Ends (fun _ => ¬ BootEndOk npagesBasemem bootEnd)
      (fun s => s.npages = s₀.npages ∧ s.premappedFlag = s₀.premappedFlag ∧
        ∃ l, InitInv npagesBasemem bootEnd s l (3 + n))
      ((List.range' 3 n).foldlM (pageInitRound npagesBasemem bootEnd) s₀) := by
  have hzero : InitInv npagesBasemem bootEnd s₀ [] 3 :=
    { chain := h.pageFreeList
      listed := fun i hi => absurd hi (by simp)
      rest := fun i _ => ⟨(h.page i).1, (h.page i).2.1, Or.inl (h.page i).2.2⟩
      full := fun i hi hi' => absurd hi (by omega)
      hole := fun hlt => absurd hlt (by omega)
      sync := by rw [drift, h.count]; rfl }
  refine ends_foldlM_range' (P := fun k s => s.npages = s₀.npages ∧
    s.premappedFlag = s₀.premappedFlag ∧ ∃ l, InitInv npagesBasemem bootEnd s l (3 + k)) ⟨rfl, rfl,
      [], hzero⟩ ?_
  rintro k - s ⟨hnp₁, hpre₁, l, hl⟩
  refine (hl.round (by omega) hbase).mono ?_ ?_
  · rintro c ⟨i, hi⟩ hok
    exact hok i c hi
  · rintro s' ⟨hnp₂, hpre₂, hl'⟩
    exact ⟨hnp₂.trans hnp₁, hpre₂.trans hpre₁, hl'⟩

/-- **`page_init` establishes the invariant**, with no block out and an exact counter. -/
theorem pageInit_ends {npages npagesBasemem : ℕ} {hnp : npages ≤ 2 ^ 20} {premapped : Bool}
    {mem : ℕ → ℕ → BitVec 8} {bootEnd : BitVec 32} {x : Except Crash Mm}
    (hx : pageInit npagesBasemem bootEnd (Mm.boot npages hnp premapped mem) = x)
    (hbase : npagesBasemem ≤ 160) (hbig : 512 < npages) :
    Ends (fun _ => ¬ BootEndOk npagesBasemem bootEnd)
      (fun s => s.npages = npages ∧ s.premappedFlag = premapped ∧
        ∃ l, AllocInv s [] l ∧ drift s l = 0 ∧ (∀ i ∈ l, i < npages - 256) ∧
          ∀ i, 3 ≤ i → i < npages - 256 →
            isAllocatedInit npagesBasemem bootEnd i = Except.ok false → i ∈ l) x := by
  have hboot : Blank (Mm.boot npages hnp premapped mem) :=
    ⟨rfl, rfl, fun _ => ⟨rfl, rfl, rfl⟩⟩
  have hlru := (hboot.modPage 0 (f := PageInfo.reset) ⟨rfl, rfl, rfl⟩).lruInit
  have hres : List.range' 1 (resPgs - 2) = [] := by decide
  have htail : pgSize / sizeofPageInfo = 256 := by decide
  have hfirst : resPgs + cprLruSz = 3 := by decide
  rw [← hx, pageInit, hres, List.foldl_nil, htail, hfirst, hlru.2.1]
  refine (hlru.1.loop hbase bootEnd _).post ?_
  rintro s ⟨hnp₁, hpre₁, l, hl⟩
  have hnpages : s.npages = npages := hnp₁.trans hlru.2.1
  have hend : 3 + (npages - 256 - 3) = npages - 256 := by omega
  have hlast : 3 + ((Mm.boot npages hnp premapped mem).npages - 256 - 3) = npages - 256 := hend
  refine ⟨hnpages, hpre₁.trans hlru.2.2, l, ?_, hl.sync, ?_, ?_⟩
  · refine
      { chain := hl.chain, listed := ?_, aligned := by simp, low := by simp, bound := by simp,
        held := by simp, apart := List.Pairwise.nil,
        rest := fun i hi _ => ⟨(hl.rest i hi).1, (hl.rest i hi).2.2⟩,
        hole := ⟨hl.hole ?_, by simp⟩ }
    · intro i hi
      obtain ⟨h₁, h₂, h₃⟩ := hl.listed i hi
      exact ⟨h₁, by omega, h₃⟩
    · omega
  · intro i hi
    have hlt := (hl.listed i hi).2.1
    omega
  · intro i hi hlt hno
    exact hl.full i hi (by omega) hno

/-! ### The allocator as a transition system -/

/-- The memory manager with the blocks its callers hold. -/
structure FrameState where
  mm : Mm
  live : List Block

/-- What callers do: the two calls, a change of the reference count of a page they hold, and a
switch of `PREMAPPED_FLAG`. -/
inductive FrameOp
  | alloc (flags : BitVec 32)
  | free (b : Block)
  | setRef (pp : ℕ) (ref : BitVec 16)
  | setPremapped (on : Bool)

/-- One call that returns.  Only blocks that are out are freed, and references are only held on
their pages. -/
def frameStep (s : FrameState) : FrameOp → FrameState → Prop
  | .alloc flags, t => ∃ r mm, pageAlloc s.mm flags = Except.ok (r, mm) ∧
      t = ⟨mm, blocksAfter flags s.live r⟩
  | .free b, t => b ∈ s.live ∧ ∃ mm, pageFree s.mm b.start = Except.ok mm ∧
      t = ⟨mm, s.live.erase b⟩
  | .setRef pp ref, t => (∃ b ∈ s.live, b.Has pp) ∧
      t = ⟨s.mm.modPage pp fun p => { p with ppRef := ref }, s.live⟩
  | .setPremapped on, t => t = ⟨{ s.mm with premappedFlag := on }, s.live⟩

/-- The step takes the branch of `remove_element_4MB_pfl` that forgets the counter. -/
def Skips (s : FrameState) : FrameOp → Prop
  | .alloc flags => SkipsCounter s.mm flags
  | _ => False

instance (s : FrameState) : (op : FrameOp) → Decidable (Skips s op)
  | .alloc flags => inferInstanceAs (Decidable (SkipsCounter s.mm flags))
  | .free _ => isFalse not_false
  | .setRef _ _ => isFalse not_false
  | .setPremapped _ => isFalse not_false

/-- **One step**: the partition is kept, and the counter drifts in one kind of step only. -/
theorem frameStep_inv {s t : FrameState} {op : FrameOp} {l : List ℕ} (hst : frameStep s op t)
    (h : AllocInv s.mm s.live l) :
    ∃ l', AllocInv t.mm t.live l' ∧
      drift t.mm l' = drift s.mm l + (if Skips s op then 1 else 0) := by
  cases op with
  | alloc flags =>
      obtain ⟨r, mm, hr, rfl⟩ := hst
      exact ((pageAlloc_ends flags h).of_ok hr).2
  | free b =>
      obtain ⟨hb, mm, hr, rfl⟩ := hst
      obtain ⟨-, l', hinv, hdrift⟩ := (pageFree_ends h hb).of_ok hr
      exact ⟨l', hinv, by simpa [Skips] using hdrift⟩
  | setRef pp ref =>
      obtain ⟨⟨b, hb, hpp⟩, rfl⟩ := hst
      exact ⟨l, h.setRef (h.not_mem_of_has hb hpp) ref, by simp [Skips, drift, Mm.modPage]⟩
  | setPremapped on =>
      obtain rfl := hst
      refine ⟨l, ?_, by simp [Skips, drift]⟩
      exact ⟨h.chain, h.listed, h.aligned, h.low, h.bound, h.held, h.apart, h.rest, h.hole⟩

/-! ### Safety -/

/-- What is promised of every state: the list ends in `NULL` and visits no page twice, its pages are
free and unreferenced, the blocks that are out are `ALLOC`, aligned, disjoint and off the list, and
none of them contains one of the frames 0, 1 and 2. -/
structure FrameSafe (s : FrameState) : Prop where
  list : ∃ l, Chain s.mm.link s.mm.pageFreeList l ∧ l.Nodup ∧
    (∀ i ∈ l, (s.mm.pages i).has alloc = false ∧ (s.mm.pages i).ppRef = 0) ∧
    ∀ b ∈ s.live, ∀ i, b.Has i → i ∉ l
  marked : ∀ b ∈ s.live, ∀ i, b.Has i → (s.mm.pages i).has alloc = true
  aligned : ∀ b ∈ s.live, b.huge = true → kb ∣ b.start
  apart : s.live.Pairwise fun b c => ∀ i, b.Has i → ¬ c.Has i
  reserved : ∀ b ∈ s.live, ∀ i, b.Has i → 3 ≤ i

theorem AllocInv.safe {s : FrameState} {l : List ℕ} (h : AllocInv s.mm s.live l) : FrameSafe s where
  list := by
    refine ⟨l, h.chain, h.chain.nodup, ?_, fun b hb i hi => h.not_mem_of_has hb hi⟩
    intro i hi
    obtain ⟨-, -, hflags, href⟩ := h.listed i hi
    exact ⟨by rw [PageInfo.has, hflags]; rfl, href⟩
  marked b hb i hi := by
    rw [PageInfo.has, (h.held b hb i hi).1]
    exact b.flags_has_alloc i
  aligned := h.aligned
  apart := h.apart
  reserved b hb i hi := (h.low b hb).trans hi.1

/-- The invariant along a run, with the counter off by the number of steps that skipped it. -/
def skips (tr : List (FrameState × FrameOp)) : ℕ := tr.countP fun p => decide (Skips p.1 p.2)

theorem run_allocInv {s t : FrameState} {tr : List (FrameState × FrameOp)}
    (hr : Run frameStep s tr t) {l : List ℕ} (h : AllocInv s.mm s.live l)
    (hd : drift s.mm l = 0) :
    ∃ l', AllocInv t.mm t.live l' ∧ drift t.mm l' = BitVec.ofNat 32 (skips tr) := by
  induction hr with
  | nil => exact ⟨l, h, hd⟩
  | @snoc t u tr op _ hst ih =>
      obtain ⟨l₁, hinv₁, hd₁⟩ := ih
      obtain ⟨l₂, hinv₂, hd₂⟩ := frameStep_inv hst hinv₁
      refine ⟨l₂, hinv₂, ?_⟩
      rw [hd₂, hd₁, skips, skips, List.countP_append, BitVec.ofNat_add]
      by_cases hs : Skips t op
      · simp [hs]
      · simp [hs]

/-- The flags of a request of the interface: any of `ALLOC_ZERO` and `ALLOC_HUGE`. -/
def ZeroOrHuge (flags : BitVec 32) : Prop := flags &&& ~~~(allocZero ||| allocHuge) = 0

theorem ZeroOrHuge.not_poison {flags : BitVec 32} (h : ZeroOrHuge flags) :
    flags &&& poisonAfterFree = 0 := by
  have hmask : poisonAfterFree = ~~~(allocZero ||| allocHuge) &&& poisonAfterFree := by decide
  rw [hmask, ← BitVec.and_assoc, show flags &&& ~~~(allocZero ||| allocHuge) = 0 from h]
  decide

/-- A block that nobody refers to can be freed. -/
theorem AllocInv.free_ok {s : Mm} {live : List Block} {l : List ℕ} {b : Block}
    (h : AllocInv s live l) (hb : b ∈ live) (href : ∀ i, b.Has i → (s.pages i).ppRef = 0) :
    ∃ mm, pageFree s b.start = Except.ok mm := by
  cases hfree : pageFree s b.start with
  | ok mm => exact ⟨mm, rfl⟩
  | error c =>
      obtain ⟨i, hi, hne⟩ := (pageFree_ends h hb).of_error hfree
      exact absurd (href i hi) hne

/-- **Safety of the frame allocator.**  Every state reached from `page_init` is safe.  In such a
state a request — with a free frame below 4 MB while only those are mapped — returns unless the
counter has drifted and its assertion fails, and a block without references can be freed. -/
theorem frame_allocator_safe {npages npagesBasemem : ℕ} {hnp : npages ≤ 2 ^ 20}
    {premapped : Bool} {mem : ℕ → ℕ → BitVec 8} {bootEnd : BitVec 32} {s₀ : Mm} {t : FrameState}
    {tr : List (FrameState × FrameOp)} (hbase : npagesBasemem ≤ 160) (hbig : 512 < npages)
    (hinit : pageInit npagesBasemem bootEnd (Mm.boot npages hnp premapped mem) = Except.ok s₀)
    (hrun : Run frameStep ⟨s₀, []⟩ tr t) :
    FrameSafe t ∧
      (∀ flags c, ZeroOrHuge flags → pageAlloc t.mm flags = Except.error c →
        (t.mm.premappedFlag = true → ∃ l, Chain t.mm.link t.mm.pageFreeList l ∧
          ∃ i ∈ l, below4MB i = true) →
        c = .assertFailed "free_pages_count > 0" ∧ 0 < skips tr) ∧
      ∀ b ∈ t.live, (∀ i, b.Has i → (t.mm.pages i).ppRef = 0) →
        ∃ mm, pageFree t.mm b.start = Except.ok mm := by
  obtain ⟨-, -, l₀, hinv₀, hd₀, -, -⟩ := pageInit_ends hinit hbase hbig
  obtain ⟨l, hinv, hd⟩ := run_allocInv hrun hinv₀ hd₀
  refine ⟨hinv.safe, ?_, ?_⟩
  · intro flags c hflags hfail hlow
    rcases (pageAlloc_ends flags hinv).of_error hfail with ⟨hc, hdrift, -⟩ | ⟨-, -, hpois⟩ |
      ⟨-, -, hpre, hhigh⟩
    · refine ⟨hc, Nat.pos_of_ne_zero fun h0 => hdrift ?_⟩
      rw [hd, h0]
      rfl
    · exact absurd hflags.not_poison hpois
    · obtain ⟨l', hl', i, hi, hib⟩ := hlow hpre
      rw [hl'.unique hinv.chain] at hi
      rw [hhigh i hi] at hib
      exact absurd hib (by simp)
  · intro b hb href
    exact hinv.free_ok hb href

/-- A kernel that ends below 2 MB is one `page_init` accepts. -/
theorem bootEndOk_2MB : BootEndOk 160 0xf0200000#32 := by
  intro i c
  unfold isAllocatedInit
  have hpaddr : paddr 0xf0200000#32 = Except.ok 0x200000#32 := by decide
  rw [hpaddr]
  dsimp only
  split
  · simp [pure, Except.pure]
  · split
    · simp [pure, Except.pure]
    · split <;> simp [pure, Except.pure, bind, Except.bind]

/-- A 4 MB machine boots, and all its free frames are below 4 MB. -/
theorem pageInit_4MB : ∃ s₀ l,
    pageInit 160 0xf0200000#32 (Mm.boot 1024 (by decide) true fun _ _ => 0) = Except.ok s₀ ∧
      AllocInv s₀ [] l ∧ drift s₀ l = 0 ∧ HeadBelow4MB s₀ ∧ s₀.premappedFlag = true := by
  generalize hx : pageInit 160 0xf0200000#32 (Mm.boot 1024 (by decide) true fun _ _ => 0) = x
  have hends := pageInit_ends hx (by decide) (by decide)
  cases x with
  | error c => exact absurd bootEndOk_2MB hends
  | ok s₀ =>
      obtain ⟨-, hpre, l, hinv, hd, hlt, hfull⟩ := hends
      refine ⟨s₀, l, rfl, hinv, hd, ?_, hpre⟩
      cases hl : l with
      | nil =>
          have h3 : 3 ∈ l := hfull 3 (by decide) (by decide) (by decide)
          rw [hl] at h3
          exact absurd h3 (by simp)
      | cons hd l' =>
          rw [hl] at hinv hlt
          have hhd : hd < 768 := hlt hd (by simp)
          refine ⟨hd, hinv.chain.1, ?_⟩
          have hpa : (page2pa hd).toNat = hd * 4096 := by
            rw [page2pa, BitVec.toNat_shiftLeft, BitVec.toNat_ofNat, Nat.shiftLeft_eq, pgShift]
            omega
          rw [below4MB, decide_eq_true_iff, BitVec.lt_def, hpa]
          change hd * 4096 < 4194304
          omega

/-- With an exact counter and a low frame at the head of the list, a request for one page is
granted. -/
theorem AllocInv.alloc_ok {s : Mm} {live : List Block} {l : List ℕ} (h : AllocInv s live l)
    (hd : drift s l = 0) (hlow : HeadBelow4MB s) :
    ∃ pp mm, pageAlloc s 0 = Except.ok (some pp, mm) := by
  obtain ⟨hd', hhead, hb⟩ := hlow
  cases halloc : pageAlloc s 0 with
  | error c =>
      rcases (pageAlloc_ends 0 h).of_error halloc with ⟨-, hdrift, -⟩ | ⟨-, hhuge, -⟩ |
        ⟨-, -, -, hhigh⟩
      · exact absurd hd hdrift
      · exact absurd hhuge (by decide)
      · have hmem : hd' ∈ l := by
          have hchain := h.chain
          rw [hhead] at hchain
          obtain ⟨l', rfl, -⟩ := chain_some.1 hchain
          simp
        rw [hhigh hd' hmem] at hb
        exact absurd hb (by simp)
  | ok r =>
      obtain ⟨pg, mm⟩ := r
      cases pg with
      | some pp => exact ⟨pp, mm, rfl⟩
      | none =>
          have hnone := (((pageAlloc_none s 0).of_ok halloc) rfl).2 (by decide)
          rw [hnone] at hhead
          exact absurd hhead (by simp)

/-- A single page that a caller was granted. -/
def servedPage (pp : ℕ) : Block := ⟨pp, false, false⟩

/-- **A page that is used and given back** on a 4 MB machine, all of whose memory is mapped after
`page_init`: the page is granted, a reference is taken and dropped, and nobody refers to the page
when it is freed.  No step forgets the counter. -/
theorem run_4MB : ∃ (s₀ : Mm) (pp : ℕ) (t : FrameState) (tr : List (FrameState × FrameOp)),
    pageInit 160 0xf0200000#32 (Mm.boot 1024 (by decide) true fun _ _ => 0) = Except.ok s₀ ∧
      Run frameStep ⟨s₀, []⟩ tr t ∧
      tr.map Prod.snd = [.setPremapped false, .alloc 0, .setRef pp 1, .setRef pp 0] ∧
      Meets (fun s op => ¬ Skips s op) tr ∧ t.live = [servedPage pp] ∧
      (∀ i, (servedPage pp).Has i → (t.mm.pages i).ppRef = 0) ∧
      ∃ mm, frameStep t (.free (servedPage pp)) ⟨mm, []⟩ := by
  obtain ⟨s₀, l, hinit, hinv, hd, hlow, -⟩ := pageInit_4MB
  have hmapped : frameStep ⟨s₀, []⟩ (.setPremapped false)
      ⟨{ s₀ with premappedFlag := false }, []⟩ := rfl
  obtain ⟨l₁, hinv₁, hd₁⟩ := frameStep_inv hmapped hinv
  rw [if_neg (fun hs : Skips ⟨s₀, []⟩ (.setPremapped false) => hs), hd] at hd₁
  obtain ⟨pp, mm, hr⟩ := hinv₁.alloc_ok hd₁ hlow
  have halloc : frameStep ⟨{ s₀ with premappedFlag := false }, []⟩ (.alloc 0)
      ⟨mm, [servedPage pp]⟩ := ⟨some pp, mm, hr, rfl⟩
  have hheld : ∃ b ∈ [servedPage pp], b.Has pp :=
    ⟨servedPage pp, List.mem_singleton.2 rfl, (Block.has_single rfl).2 rfl⟩
  have hrun := ((((Run.nil _).snoc hmapped).snoc halloc).snoc
    (show frameStep _ (.setRef pp 1) _ from ⟨hheld, rfl⟩)).snoc
    (show frameStep _ (.setRef pp 0) _ from ⟨hheld, rfl⟩)
  obtain ⟨l₂, hinv₂, -⟩ := run_allocInv hrun hinv hd
  have hdropped : ∀ i, (servedPage pp).Has i → (((mm.modPage pp fun p =>
      { p with ppRef := 1 }).modPage
      pp fun p => { p with ppRef := 0 }).pages i).ppRef = 0 := by
    intro i hi
    rw [(Block.has_single rfl).1 hi]
    exact congrArg PageInfo.ppRef (Mm.modPage_self _ pp _)
  obtain ⟨mm', hfree⟩ := hinv₂.free_ok (List.mem_singleton.2 rfl) hdropped
  refine ⟨s₀, pp, _, _, hinit, hrun, rfl, ?_, rfl, hdropped, mm', ?_⟩
  · refine ((((Meets.nil _).snoc ?_).snoc ?_).snoc ?_).snoc ?_
    · exact not_false
    · exact fun hs => Bool.noConfusion hs.2.1
    · exact not_false
    · exact not_false
  · exact ⟨List.mem_singleton.2 rfl, mm', hfree, by rw [List.erase_cons_head]⟩

/-- On a 4 MB machine a page is granted, used and given back: the states before and after
`page_free` are safe, and it is the theorem that promises the call returns. -/
theorem frame_allocator_safe_4MB : ∃ (s₀ : Mm) (pp : ℕ) (t u : FrameState)
    (tr : List (FrameState × FrameOp)),
    pageInit 160 0xf0200000#32 (Mm.boot 1024 (by decide) true fun _ _ => 0) = Except.ok s₀ ∧
      Run frameStep ⟨s₀, []⟩ tr t ∧ t.live = [servedPage pp] ∧
      (∃ mm, pageFree t.mm pp = Except.ok mm) ∧ frameStep t (.free (servedPage pp)) u ∧
      FrameSafe t ∧ FrameSafe u := by
  obtain ⟨s₀, pp, t, tr, hinit, hrun, -, -, hlive, href, mm, hfree⟩ := run_4MB
  have hsafe := frame_allocator_safe (by decide) (by decide) hinit hrun
  have hmem : servedPage pp ∈ t.live := by rw [hlive]; exact List.mem_singleton.2 rfl
  exact ⟨s₀, pp, t, _, tr, hinit, hrun, hlive, hsafe.2.2 _ hmem href, hfree, hsafe.1,
    (frame_allocator_safe (by decide) (by decide) hinit (hrun.snoc hfree)).1⟩

/-! ### The counter -/

/-- The counter equals the length of the list. -/
def CounterExact (s : Mm) : Prop :=
  ∃ l, Chain s.link s.pageFreeList l ∧ s.freePagesCount.toNat = l.length

/-- The counter is exact when it has not drifted. -/
theorem AllocInv.counterExact_iff {s : Mm} {live : List Block} {l : List ℕ}
    (h : AllocInv s live l) : CounterExact s ↔ drift s l = 0 := by
  have hlen : l.length < 2 ^ 32 := by
    have hle := h.length_le
    have hnp := s.npages_le
    omega
  have hnat : (BitVec.ofNat 32 l.length).toNat = l.length := by
    rw [BitVec.toNat_ofNat, Nat.mod_eq_of_lt hlen]
  constructor
  · rintro ⟨l', hl', hcount⟩
    rw [hl'.unique h.chain, ← hnat] at hcount
    rw [drift, BitVec.eq_of_toNat_eq hcount]
    exact BitVec.sub_self _
  · intro hd
    refine ⟨l, h.chain, ?_⟩
    rw [drift] at hd
    rw [show s.freePagesCount = BitVec.ofNat 32 l.length by bv_omega, hnat]

/-- **The counter along a run.**  It is exact in every state reached by a run that never takes the
forgetful branch, and until `2 ^ 32` steps are done only then. -/
theorem counter_exact_iff {npages npagesBasemem : ℕ} {hnp : npages ≤ 2 ^ 20}
    {premapped : Bool} {mem : ℕ → ℕ → BitVec 8} {bootEnd : BitVec 32} {s₀ : Mm} {t : FrameState}
    {tr : List (FrameState × FrameOp)} (hbase : npagesBasemem ≤ 160) (hbig : 512 < npages)
    (hinit : pageInit npagesBasemem bootEnd (Mm.boot npages hnp premapped mem) = Except.ok s₀)
    (hrun : Run frameStep ⟨s₀, []⟩ tr t) :
    (Meets (fun s op => ¬ Skips s op) tr → CounterExact t.mm) ∧
      (tr.length < 2 ^ 32 → CounterExact t.mm → Meets (fun s op => ¬ Skips s op) tr) := by
  obtain ⟨-, -, l₀, hinv₀, hd₀, -, -⟩ := pageInit_ends hinit hbase hbig
  obtain ⟨l, hinv, hd⟩ := run_allocInv hrun hinv₀ hd₀
  rw [hinv.counterExact_iff, hd]
  constructor
  · intro hmeets
    have hzero : skips tr = 0 := by
      rw [skips, List.countP_eq_zero]
      intro p hp
      simpa using hmeets p hp
    rw [hzero]
    rfl
  · intro hlen hexact p hp hskip
    have hpos : 0 < skips tr := by
      rw [skips, List.countP_pos_iff]
      exact ⟨p, hp, by simpa using hskip⟩
    have hle : skips tr ≤ tr.length := List.countP_le_length
    have hnat := congrArg BitVec.toNat hexact
    rw [BitVec.toNat_ofNat, Nat.mod_eq_of_lt (by omega)] at hnat
    change skips tr = 0 at hnat
    omega

/-- On a 4 MB machine the counter is exact after a page was granted, used and given back, with all
of memory mapped. -/
theorem counter_exact_4MB : ∃ (s₀ : Mm) (pp : ℕ) (u : FrameState)
    (tr : List (FrameState × FrameOp)),
    pageInit 160 0xf0200000#32 (Mm.boot 1024 (by decide) true fun _ _ => 0) = Except.ok s₀ ∧
      Run frameStep ⟨s₀, []⟩ tr u ∧
      tr.map Prod.snd = [.setPremapped false, .alloc 0, .setRef pp 1, .setRef pp 0,
        .free (servedPage pp)] ∧
      Meets (fun s op => ¬ Skips s op) tr ∧ CounterExact u.mm := by
  obtain ⟨s₀, pp, t, tr, hinit, hrun, hops, hmeets, -, -, mm, hfree⟩ := run_4MB
  have hmeets' : Meets (fun s op => ¬ Skips s op) (tr ++ [(t, .free (servedPage pp))]) :=
    hmeets.snoc not_false
  refine ⟨s₀, pp, _, _, hinit, hrun.snoc hfree, ?_, hmeets',
    (counter_exact_iff (by decide) (by decide) hinit (hrun.snoc hfree)).1 hmeets'⟩
  rw [List.map_append, hops]
  rfl

/-- On a 4 MB machine the first request after `page_init`, made while only the first 4 MB are
mapped, leaves the counter one too high. -/
theorem counter_not_exact_4MB : ∃ (s₀ : Mm) (t : FrameState)
    (tr : List (FrameState × FrameOp)),
    pageInit 160 0xf0200000#32 (Mm.boot 1024 (by decide) true fun _ _ => 0) = Except.ok s₀ ∧
      Run frameStep ⟨s₀, []⟩ tr t ∧ tr.map Prod.snd = [FrameOp.alloc 0] ∧
      ¬ CounterExact t.mm := by
  obtain ⟨s₀, l, hinit, hinv, hd, hlow, hpre⟩ := pageInit_4MB
  obtain ⟨pp, mm, hr⟩ := hinv.alloc_ok hd hlow
  have hstep : frameStep ⟨s₀, []⟩ (.alloc 0) ⟨mm, [servedPage pp]⟩ := ⟨some pp, mm, hr, rfl⟩
  have hskip : Skips ⟨s₀, []⟩ (.alloc 0) := ⟨by decide, hpre, hlow⟩
  obtain ⟨l', hinv', hd'⟩ := frameStep_inv hstep hinv
  refine ⟨s₀, _, _, hinit, (Run.nil _).snoc hstep, rfl, ?_⟩
  rw [hinv'.counterExact_iff, hd', hd, if_pos hskip]
  decide

end Jos
