/-
**Requests to the frame allocator.**

`find_huge_page` looks for the first 1024 aligned frames without `ALLOC`, and it finds them exactly
when there are some. What `page_alloc` does with them is another matter. A request for a huge block
that is to be poisoned marks the head of the block twice and panics at its own mark, and a request
for a page below 4 MB follows a null pointer when there is none. All other requests return, as long
as the counter of free pages has not been left behind so often that it wraps.

Main definitions:

* `Jos.FreeBlock` — a huge block that can be handed out;
* `Jos.Trips` — the requests that `page_alloc` does not survive;
* `Jos.BlockBack` — a block is back, with its marks cleared and its bytes poisoned.

Main results:

* `Jos.findHugePage_exact` — the search for a huge block is exact;
* `Jos.page_alloc_returns_iff` — which requests return, in every state reached from `page_init`.
-/

import Mathlib.Order.Bounds.Defs
import JosKernel.BlockRefs
import JosKernel.BootAlloc

set_option relaxedAutoImplicit false
set_option autoImplicit false

namespace Jos

open LinkedList Outcome LabelledRun

/-! ### The search for a huge block -/

/-- **A huge block that can be handed out**: it is aligned, lies in memory and none of its pages is
`ALLOC`. -/
def FreeBlock (s : Mm) (h : ℕ) : Prop :=
  kb ∣ h ∧ h + kb ≤ s.npages ∧ ∀ i, h ≤ i → i < h + kb → (s.pages i).has alloc = false

/-- The outer loop, entered with the counter at zero, finds the first block from `j` on without an
`ALLOC` page. -/
theorem scanBlocks_cases (s : Mm) : ∀ n j hpIdx : ℕ,
    (∃ m, j ≤ m ∧ m < j + n ∧ scanBlocks s n j 0 hpIdx = some (m * kb) ∧
        (∀ k < kb, (s.pages (m * kb + k)).has alloc = false) ∧
        ∀ m', j ≤ m' → m' < m → ∃ k < kb, (s.pages (m' * kb + k)).has alloc = true) ∨
      (scanBlocks s n j 0 hpIdx = none ∧
        ∀ m, j ≤ m → m < j + n → ∃ k < kb, (s.pages (m * kb + k)).has alloc = true) := by
  intro n
  induction n with
  | zero =>
      intro j hpIdx
      refine Or.inr ⟨?_, fun m hm hm' => absurd hm' (by omega)⟩
      rw [scanBlocks, if_neg (by decide)]
  | succ n ih =>
      intro j hpIdx
      have hpage : ∀ k, (s.pages (0 + k + j * kb)) = s.pages (j * kb + k) := by
        intro k
        rw [Nat.zero_add, Nat.add_comm]
      rw [scanBlocks]
      rcases scanBlock_eq s (j * kb) kb 0 0 with ⟨hall, heq⟩ | ⟨⟨k, hk, hal⟩, heq⟩
      · left
        refine ⟨j, Nat.le_refl j, by omega, ?_, fun k hk => ?_, fun m' hm' hlt =>
          absurd hm' (by omega)⟩
        · rw [heq]
          exact if_pos (Nat.zero_add kb)
        · rw [← hpage]
          exact hall k hk
      · -- the block is not free, and the counter is back at zero
        rw [hpage] at hal
        rw [heq]
        change (∃ m, j ≤ m ∧ m < j + (n + 1) ∧ scanBlocks s n (j + 1) 0 (j * kb) =
          some (m * kb) ∧ _) ∨
          (scanBlocks s n (j + 1) 0 (j * kb) = none ∧ _)
        rcases ih (j + 1) (j * kb) with ⟨m, hm, hmn, hfound, hfree, hfirst⟩ | ⟨hnone, hused⟩
        · left
          refine ⟨m, by omega, by omega, hfound, hfree, fun m' hm' hlt => ?_⟩
          by_cases heq' : m' = j
          · exact ⟨k, hk, heq' ▸ hal⟩
          · exact hfirst m' (by omega) hlt
        · right
          refine ⟨hnone, fun m hm hmn => ?_⟩
          by_cases heq' : m = j
          · exact ⟨k, hk, heq' ▸ hal⟩
          · exact hused m (by omega) (by omega)

/-- A free block is one of those the loop looks at. -/
theorem FreeBlock.index {s : Mm} {h : ℕ} (hf : FreeBlock s h) :
    ∃ m < s.npages / kb, h = m * kb ∧ ∀ k < kb, (s.pages (m * kb + k)).has alloc = false := by
  obtain ⟨⟨m, rfl⟩, hnp, hfree⟩ := hf
  have hkb : kb = 1024 := rfl
  refine ⟨m, ?_, Nat.mul_comm kb m, fun k hk => hfree _ ?_ ?_⟩
  · rw [hkb] at hnp ⊢
    omega
  · rw [Nat.mul_comm]
    exact Nat.le_add_right _ _
  · rw [Nat.mul_comm]
    omega

/-- **What the search returns**: the first free block, or `-1` when there is none. -/
theorem findHugePage_cases (s : Mm) :
    (∃ h, findHugePage s = some h ∧ FreeBlock s h ∧ ∀ h', FreeBlock s h' → h ≤ h') ∨
      (findHugePage s = none ∧ ∀ h, ¬ FreeBlock s h) := by
  have hused : ∀ m, (∃ k < kb, (s.pages (m * kb + k)).has alloc = true) →
      ¬ ∀ k < kb, (s.pages (m * kb + k)).has alloc = false := by
    rintro m ⟨k, hk, hal⟩ hfree
    rw [hfree k hk] at hal
    exact nomatch hal
  rcases scanBlocks_cases s (s.npages / kb) 0 0 with ⟨m, -, -, hfound, -, hfirst⟩ | ⟨hnone, hall⟩
  · left
    refine ⟨m * kb, hfound, findHugePage_spec hfound, fun h' hf => ?_⟩
    obtain ⟨m', -, rfl, hfree⟩ := hf.index
    refine Nat.mul_le_mul_right kb (Nat.le_of_not_lt fun hlt => ?_)
    exact hused m' (hfirst m' (Nat.zero_le _) hlt) hfree
  · right
    refine ⟨hnone, fun h hf => ?_⟩
    obtain ⟨m, hm, -, hfree⟩ := hf.index
    exact hused m (hall m (Nat.zero_le _) (by omega)) hfree

/-- **The search for a huge block is exact**, for every number of pages and all flags. -/
theorem findHugePage_exact (s : Mm) :
    (∀ h, findHugePage s = some h ↔ IsLeast {h | FreeBlock s h} h) ∧
      (findHugePage s = none ↔ ∀ h, ¬ FreeBlock s h) := by
  rcases findHugePage_cases s with ⟨h₀, hfound, hfree, hleast⟩ | ⟨hnone, hall⟩
  · rw [hfound]
    refine ⟨fun h => ⟨fun heq => ?_, fun hl => ?_⟩,
      ⟨fun heq => (nomatch heq), fun hall => absurd hfree (hall h₀)⟩⟩
    · obtain rfl := Option.some_inj.1 heq
      exact ⟨hfree, fun h' hf => hleast h' hf⟩
    · exact congrArg some (Nat.le_antisymm (hleast h hl.1) (hl.2 hfree))
  · rw [hnone]
    exact ⟨fun h => ⟨fun heq => (nomatch heq), fun hl => absurd hl.1 (hall h)⟩,
      ⟨fun _ => hall, fun _ => rfl⟩⟩

/-! ### The requests that crash -/

/-- **The requests `page_alloc` does not survive**: a huge block that is to be poisoned, when there
is one; and an ordinary page with no free frame below 4 MB, while only the first 4 MB are mapped. -/
def Trips (s : Mm) (flags : BitVec 32) : Prop :=
  s.pageFreeList ≠ none ∧
    ((flags &&& allocHuge ≠ 0 ∧ flags &&& poisonAfterFree ≠ 0 ∧ ∃ h, FreeBlock s h) ∨
      (flags &&& allocHuge = 0 ∧ s.premappedFlag = true ∧
        ∀ l, Chain s.link s.pageFreeList l → ∀ i ∈ l, below4MB i = false))

/-- The head of the block is marked before the loop over its pages, and the first round finds the
mark. -/
theorem pageAllocHuge_poison {s : Mm} {live : List Block} {l : List ℕ} {flags : BitVec 32} {hp : ℕ}
    (h : AllocInv s live l) (hfind : findHugePage s = some hp)
    (hpois : flags &&& poisonAfterFree ≠ 0) :
    pageAllocHuge s flags =
      throw (.panic "page_alloc huge: PAGE TO ALLOC ALREADY MARKED AS POISON_AFTER_FREE") := by
  have hkb : kb = 1023 + 1 := rfl
  obtain ⟨-, -, hfree⟩ := findHugePage_spec hfind
  have hhead : (s.pages hp).pageFlags = 0 :=
    (h.flags_of_not_alloc (hfree hp (Nat.le_refl hp) (by simp [kb]))).1
  have hclear : (s.pages hp).has poisonAfterFree = false := by
    rw [PageInfo.has, hhead]
    rfl
  have hnotHuge : ((s.modPage hp (PageInfo.set poisonAfterFree)).pages hp).has allocHuge =
    false := by
    rw [Mm.modPage_self]
    simp only [PageInfo.has, PageInfo.set, hhead]
    decide
  have hmark : ((s.modPage hp fun p => PageInfo.set allocHuge
      (PageInfo.set poisonAfterFree p)).pages hp).has
      poisonAfterFree = true := by
    rw [Mm.modPage_self]
    simp only [PageInfo.has, PageInfo.set, hhead]
    decide
  have hmarked : markPoison s flags hp = Except.ok (s.modPage hp
    (PageInfo.set poisonAfterFree)) := by
    rw [markPoison, if_pos hpois, if_neg (by simp [hclear])]
    rfl
  have hagain : markPoison (s.modPage hp fun p => PageInfo.set allocHuge
      (PageInfo.set poisonAfterFree p)) flags hp =
      throw (.panic "page_alloc huge: PAGE TO ALLOC ALREADY MARKED AS POISON_AFTER_FREE") := by
    rw [markPoison, if_pos hpois, if_pos hmark]
  rw [pageAllocHuge, hfind]
  change markPoison s flags hp >>= _ = _
  rw [hmarked]
  change (if _ then _ else _) = _
  rw [if_neg (by simp [hnotHuge]), Mm.modPage_modPage, hkb, List.range'_succ, List.foldlM_cons,
    allocHugeRound, hagain]
  rfl

/-- **The requests that trip do not return.** -/
theorem AllocInv.trips {s : Mm} {live : List Block} {l : List ℕ} {flags : BitVec 32}
    (h : AllocInv s live l) (ht : Trips s flags) : ∃ c, pageAlloc s flags = Except.error c := by
  obtain ⟨hne, ⟨hh, hpois, b, hb⟩ | ⟨hh, hpre, hhigh⟩⟩ := ht
  · rcases findHugePage_cases s with ⟨hp, hfind, -, -⟩ | ⟨-, hnone⟩
    · refine ⟨.panic "page_alloc huge: PAGE TO ALLOC ALREADY MARKED AS POISON_AFTER_FREE", ?_⟩
      rw [pageAlloc, if_neg hne, if_pos hh, pageAllocHuge_poison h hfind hpois]
      rfl
    · exact absurd hb (hnone b)
  · refine ⟨.nullDeref, ?_⟩
    rw [pageAlloc, if_neg hne, if_neg (not_not_intro hh), if_pos hpre,
      removeElement4MBPfl_of_high h.chain h.length_le hne (hhigh l h.chain)]
    rfl

/-- **Which requests return**: all that do not trip, as long as the counter has not drifted until it
wrapped. -/
theorem AllocInv.returns_iff {s : Mm} {live : List Block} {l : List ℕ} (h : AllocInv s live l)
    (hd : (drift s l).toNat + l.length < 2 ^ 32) (flags : BitVec 32) :
    (∃ r mm, pageAlloc s flags = Except.ok (r, mm)) ↔ ¬ Trips s flags := by
  constructor
  · rintro ⟨r, mm, hr⟩ ht
    obtain ⟨c, hc⟩ := h.trips ht
    rw [hc] at hr
    exact nomatch hr
  · intro hok
    cases hcall : pageAlloc s flags with
    | ok r => exact ⟨r.1, r.2, rfl⟩
    | error c =>
        have hne : s.pageFreeList ≠ none := by
          intro hnone
          rw [pageAlloc, if_pos hnone] at hcall
          exact nomatch hcall
        exfalso
        rcases (pageAlloc_ends flags h).of_error hcall
          with ⟨-, -, hwrap⟩ | ⟨-, hh, hpois⟩ | ⟨-, hh, hpre, hhigh⟩
        · omega
        · refine hok ⟨hne, Or.inl ⟨hh, hpois, ?_⟩⟩
          rcases findHugePage_cases s with ⟨hp, -, hfree, -⟩ | ⟨hnone, -⟩
          · exact ⟨hp, hfree⟩
          · rw [pageAlloc, if_neg hne, if_pos hh, pageAllocHuge, hnone] at hcall
            exact nomatch hcall
        · refine hok ⟨hne, Or.inr ⟨hh, hpre, fun l' hl' => ?_⟩⟩
          rw [hl'.unique h.chain]
          exact hhigh

/-! ### A block comes back -/

/-- **The block `b` is back**: its pages carry none of the marks, those allocated for poisoning are
filled with ones, and no other frame is written to. -/
structure BlockBack (s s' : Mm) (b : Block) : Prop where
  flags : ∀ i, b.Has i → (s'.pages i).has alloc = false ∧ (s'.pages i).has allocHuge = false ∧
    (s'.pages i).has poisonAfterFree = false
  poisoned : ∀ i, b.Has i → b.poison = true → s'.mem i = fun _ => 1
  kept : ∀ i, ¬ (b.Has i ∧ b.poison = true) → s'.mem i = s.mem i

/-- What the rounds over the block at `hp` have written: the marked pages they came to are filled
with ones. -/
structure Filling (s s' : Mm) (hp k : ℕ) : Prop where
  npages : s'.npages = s.npages
  pages : ∀ i, hp + k ≤ i → s'.pages i = s.pages i
  hit : ∀ i, hp ≤ i → i < hp + k → (s.pages i).has poisonAfterFree = true → s'.mem i = fun _ => 1
  miss : ∀ i, ¬ (hp ≤ i ∧ i < hp + k ∧ (s.pages i).has poisonAfterFree = true) → s'.mem i = s.mem i

/-- One round. -/
theorem Filling.round {s s' : Mm} {hp k : ℕ} (h : Filling s s' hp k) (hnp : hp + k < s.npages)
    {E : Crash → Prop} :
    Ends E (fun s'' => Filling s s'' hp (k + 1)) (freeHugeRound s' (hp + k)) := by
  obtain ⟨f, m, hclear, -, hother, -, hones, hsame⟩ :=
    clearPoison_eq (h.npages ▸ hnp : hp + k < s'.npages)
  rw [h.pages (hp + k) (Nat.le_refl _)] at hones hsame
  rw [freeHugeRound, hclear]
  simp only [ends_bind, ends_ok, ends_pure]
  refine ⟨h.npages, fun i hi => ?_, fun i hi hi' hmark => ?_, fun i hi => ?_⟩
  · rw [addHeadPfl_of_ne _ (by omega), Mm.modPage_of_ne _ _ (by omega),
      Mm.modPage_of_ne _ _ (by omega)]
    exact h.pages i (by omega)
  · change m i = _
    by_cases heq : i = hp + k
    · rw [heq]
      exact hones (heq ▸ hmark)
    · rw [hother i heq]
      exact h.hit i hi (by omega) hmark
  · change m i = _
    by_cases heq : i = hp + k
    · have hlow : ¬ (hp ≤ i ∧ i < hp + k ∧ (s.pages i).has poisonAfterFree = true) := by omega
      rw [heq, hsame (by simpa [heq] using hi), ← heq]
      exact h.miss i hlow
    · rw [hother i heq]
      exact h.miss i fun hc => hi ⟨hc.1, by omega, hc.2.2⟩

/-- **The bytes after `page_free`**: exactly the marked pages of the block are overwritten. -/
theorem AllocInv.freed_bytes {s : Mm} {live : List Block} {l : List ℕ} {b : Block}
    (h : AllocInv s live l) (hb : b ∈ live) :
    Ends (fun _ => True)
      (fun s' => (∀ i, b.Has i → (s.pages i).has poisonAfterFree = true → s'.mem i = fun _ => 1) ∧
        ∀ i, ¬ (b.Has i ∧ (s.pages i).has poisonAfterFree = true) → s'.mem i = s.mem i)
      (pageFree s b.start) := by
  have hbound := h.bound b hb
  have hfl := (h.held b hb b.start b.has_start).1
  have hle := s.npages_le
  unfold pageFree
  refine ends_ite (fun _ => True.intro) fun _ => ends_ite (fun _ => True.intro) fun _ =>
    ends_ite (fun hhuge => ?_) fun hhuge => ?_
  · rw [PageInfo.has, hfl, b.flags_has_huge, decide_eq_true_iff] at hhuge
    have hsize : b.size = kb := by simp [Block.size, hhuge.1]
    have hkb : kb = 1024 := rfl
    have hidx : pgnum (page2pa b.start) = b.start := by
      rw [pgnum_page2pa, Nat.mod_eq_of_lt (by omega)]
    dsimp only
    rw [hidx, ends_bind]
    refine (Ends.of_forall (Q := fun _ => True) (fun _ => True.intro) _).post fun _ _ => ?_
    -- clearing the mark of the head does not touch the marks for poisoning
    have hmark : ∀ i, ((s.modPage b.start (PageInfo.flip allocHuge)).pages i).has poisonAfterFree =
        (s.pages i).has poisonAfterFree := by
      intro i
      by_cases hi : i = b.start
      · subst hi
        rw [Mm.modPage_self]
        simp only [PageInfo.has, PageInfo.flip, hfl, Block.flags]
        cases b.poison
        · split <;> decide
        · split <;> decide
      · rw [Mm.modPage_of_ne _ _ hi]
    have hstart : Filling (s.modPage b.start (PageInfo.flip allocHuge))
        (s.modPage b.start (PageInfo.flip allocHuge)) b.start 0 :=
      ⟨rfl, fun _ _ => rfl, fun i hi hi' => absurd hi' (by omega), fun _ _ => rfl⟩
    have hloop := ends_foldlM_range' (E := fun _ => True)
      (P := fun k s' => Filling (s.modPage b.start (PageInfo.flip allocHuge)) s' b.start k)
      (n := kb) hstart fun k hk s' hs' => hs'.round (by rw [Mm.modPage_npages]; omega)
    refine hloop.post fun s' hs' => ⟨fun i hi hset => ?_, fun i hi => ?_⟩
    · rw [Block.has_huge hhuge.1] at hi
      exact hs'.hit i hi.1 hi.2 ((hmark i).trans hset)
    · rw [Block.has_huge hhuge.1] at hi
      exact hs'.miss i fun hc => hi ⟨⟨hc.1, hc.2.1⟩, (hmark i).symm.trans hc.2.2⟩
  · have hh : b.huge = false := by
      rw [PageInfo.has, hfl, b.flags_has_huge, decide_eq_true_iff] at hhuge
      simpa using hhuge
    have hnp : b.start < s.npages := by
      simp only [Block.size, hh, Bool.false_eq_true, if_false] at hbound
      omega
    obtain ⟨f, m, hclear, -, hother, -, hones, hsame⟩ := clearPoison_eq hnp
    rw [hclear, ends_bind, ends_ok]
    refine ends_ite (fun _ => ⟨fun i hi hset => ?_, fun i hi => ?_⟩) fun _ => True.intro
    · change m i = _
      obtain rfl := (Block.has_single hh).1 hi
      exact hones hset
    · change m i = _
      rw [Block.has_single hh] at hi
      by_cases heq : i = b.start
      · subst heq
        exact hsame (by simpa using hi)
      · exact hother i heq

/-- **`page_free`** of a block that nobody refers to any more brings it back. -/
theorem AllocInv.released {s : Mm} {live : List Block} {l : List ℕ} {b : Block}
    (h : AllocInv s live l) (hb : b ∈ live) (href : ∀ i, b.Has i → (s.pages i).ppRef = 0) :
    ∃ s', pageFree s b.start = Except.ok s' ∧ BlockBack s s' b := by
  obtain ⟨s', hrun, hfreed⟩ := pageFree_block h hb href
  have hbytes := (h.freed_bytes hb).of_ok hrun
  have hclear : ∀ (flag : BitVec 32) (i : ℕ), b.Has i → (s'.pages i).has flag = false := by
    intro flag i hi
    rw [PageInfo.has, (hfreed.inv.listed i (mem_backList.2 (Or.inl hi))).2.2.1, bne_eq_false_iff_eq]
    exact BitVec.zero_and
  have hmark : ∀ i, b.Has i → (s.pages i).has poisonAfterFree = b.poison := by
    intro i hi
    rw [PageInfo.has, (h.held b hb i hi).1, Block.flags]
    cases b.poison
    · split <;> decide
    · split <;> decide
  refine ⟨s', hrun, ⟨fun i hi => ⟨hclear _ i hi, hclear _ i hi, hclear _ i hi⟩, fun i hi hp => ?_,
    fun i hi => ?_⟩⟩
  · exact hbytes.1 i hi ((hmark i hi).trans hp)
  · exact hbytes.2 i fun hc => hi ⟨hc.1, (hmark i hc.1).symm.trans hc.2⟩

/-! ### Every state -/

/-- **Requests in every state reached from `page_init`**, as long as fewer than `2 ^ 32 - 2 ^ 20` of
the requests so far took the branch that forgets the counter: a request returns, with `NULL` or a
block, if and only if it does not trip; and a block nobody refers to comes back with its marks
cleared and its bytes poisoned as it was asked for. -/
theorem page_alloc_returns_iff {npages npagesBasemem : ℕ} {hnp : npages ≤ 2 ^ 20} {premapped : Bool}
    {mem : ℕ → ℕ → BitVec 8} {bootEnd : BitVec 32} {s₀ : Mm} {t : FrameState}
    {tr : List (FrameState × FrameOp)} (hbase : npagesBasemem ≤ 160) (hbig : 512 < npages)
    (hinit : pageInit npagesBasemem bootEnd (Mm.boot npages hnp premapped mem) = Except.ok s₀)
    (hrun : Run frameStep ⟨s₀, []⟩ tr t) (hfew : skips tr < 2 ^ 32 - 2 ^ 20) :
    (∀ flags, (∃ r mm, pageAlloc t.mm flags = Except.ok (r, mm)) ↔ ¬ Trips t.mm flags) ∧
      (∀ flags r mm, pageAlloc t.mm flags = Except.ok (r, mm) →
        FrameSafe ⟨mm, blocksAfter flags t.live r⟩) ∧
      ∀ b ∈ t.live, (∀ i, b.Has i → (t.mm.pages i).ppRef = 0) →
        ∃ mm, pageFree t.mm b.start = Except.ok mm ∧ BlockBack t.mm mm b := by
  obtain ⟨-, -, l₀, hinv₀, hd₀, -, -⟩ := pageInit_ends hinit hbase hbig
  obtain ⟨l, hinv, hd⟩ := run_allocInv hrun hinv₀ hd₀
  have hlen := hinv.length_le
  have hle := t.mm.npages_le
  have hwrap : (drift t.mm l).toNat + l.length < 2 ^ 32 := by
    have hmod := Nat.mod_le (skips tr) (2 ^ 32)
    rw [hd, BitVec.toNat_ofNat]
    omega
  refine ⟨hinv.returns_iff hwrap, fun flags r mm hr => ?_, fun b hb href => hinv.released hb href⟩
  obtain ⟨-, l', hinv', -⟩ := (pageAlloc_ends flags hinv).of_ok hr
  exact hinv'.safe (s := ⟨mm, blocksAfter flags t.live r⟩)

/-- On a 4 MB machine, while a page is out that was used and is no longer referred to: a request
returns unless it trips, and the page comes back. -/
theorem page_alloc_returns_iff_4MB : ∃ (s₀ : Mm) (pp : ℕ) (t : FrameState)
    (tr : List (FrameState × FrameOp)),
    pageInit 160 0xf0200000#32 (Mm.boot 1024 (by decide) true fun _ _ => 0) = Except.ok s₀ ∧
      Run frameStep ⟨s₀, []⟩ tr t ∧ t.live = [servedPage pp] ∧
      (∀ flags, (∃ r mm, pageAlloc t.mm flags = Except.ok (r, mm)) ↔ ¬ Trips t.mm flags) ∧
      ∃ mm, pageFree t.mm pp = Except.ok mm ∧ BlockBack t.mm mm (servedPage pp) := by
  obtain ⟨s₀, pp, t, tr, hinit, hrun, -, hmeets, hlive, href, -⟩ := run_4MB
  have hfew : skips tr < 2 ^ 32 - 2 ^ 20 := by
    rw [skips, List.countP_eq_zero.2 (fun p hp => by simpa using hmeets p hp)]
    decide
  have hall := page_alloc_returns_iff (by decide) (by decide) hinit hrun hfew
  have hmem : servedPage pp ∈ t.live := by
    rw [hlive]
    exact List.mem_singleton.2 rfl
  exact ⟨s₀, pp, t, tr, hinit, hrun, hlive, hall.1, hall.2.2 _ hmem href⟩

/-- **A huge request for poisoning panics**: on a 16 MB machine, right after `page_init`, with all
of memory mapped. -/
theorem huge_poison_panics : ∃ s₀ : Mm,
    pageInit 160 0xf0200000#32 (Mm.boot 4096 (by decide) false fun _ _ => 0) = Except.ok s₀ ∧
      ∃ c, pageAlloc s₀ (allocHuge ||| poisonAfterFree) = Except.error c := by
  generalize hx : pageInit 160 0xf0200000#32 (Mm.boot 4096 (by decide) false fun _ _ => 0) = x
  have htop : paddr 0xf0200000#32 = Except.ok 0x200000#32 := by decide
  have hends := pageInit_ends hx (by decide) (by decide)
  cases x with
  | error c => exact absurd bootEndOk_2MB hends
  | ok s₀ =>
      obtain ⟨hnp, -, l, hinv, -, -, hfull⟩ := hends
      have hlisted : ∀ i, 1024 ≤ i → i < 2048 → i ∈ l := by
        intro i hi hi'
        refine hfull i (by omega) (by omega) ((isAllocatedInit_free (by decide)
          htop (by omega) (by omega)).2 ?_)
        have hres : resPgs + cprLruSz = 3 := by decide
        have hext : extPhysMem.toNat = 0x100000 := rfl
        have hkern : (0x200000#32).toNat = 0x200000 := rfl
        rw [UsedAtBoot, hres, hext, hkern, pgSize]
        omega
      have hne : s₀.pageFreeList ≠ none := by
        intro hnone
        have hnil := hinv.chain.eq_nil_iff.2 hnone
        have hmem := hlisted 1024 (Nat.le_refl _) (by decide)
        rw [hnil] at hmem
        exact absurd hmem (by simp)
      refine ⟨s₀, rfl, hinv.trips ⟨hne,
        Or.inl ⟨by decide, by decide, 1024, Nat.dvd_refl _, ?_, fun i hi hi' => ?_⟩⟩⟩
      · rw [hnp]
        decide
      · rw [PageInfo.has, (hinv.listed i (hlisted i hi hi')).2.2.1]
        rfl

end Jos
