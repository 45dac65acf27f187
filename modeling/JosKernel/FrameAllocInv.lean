/-
**The invariant of the frame allocator.**

The allocator is seen as a partition of the frames: a list of free ones, the blocks that are out —
single pages and huge blocks of 1024 — and the frames that belong to neither.  `Jos.AllocInv` ties
that picture to the flags, links and counters of the array.  The last kind of frame matters: the
reserved frames at the bottom and the frames beyond the end of `page_init`'s loop are on no list and
yet carry no `ALLOC` flag, so only the I/O hole keeps a huge block away from the frames 0, 1 and 2.

Main definitions:

* `Jos.Block` — a block that is out;
* `Jos.AllocInv` — the invariant;
* `Jos.AllocCrash`, `Jos.AllocPost` — how a request can crash and what it leaves behind.

Main results:

* `Jos.pageAlloc_ends` — what `page_alloc` does to the partition, for every request.
-/

import Mathlib.Data.List.Range
import JosKernel.FrameAllocList

set_option relaxedAutoImplicit false
set_option autoImplicit false

namespace Jos

open LinkedList Outcome

/-! ### Blocks -/

/-- A block handed out by `page_alloc`: its first frame and what was asked for. -/
structure Block where
  start : ℕ
  huge : Bool
  poison : Bool
  deriving DecidableEq, Repr

namespace Block

/-- The number of pages of a block. -/
def size (b : Block) : ℕ := if b.huge then kb else 1

/-- The frame `i` is a page of the block. -/
def Has (b : Block) (i : ℕ) : Prop := b.start ≤ i ∧ i < b.start + b.size

instance (b : Block) (i : ℕ) : Decidable (b.Has i) := instDecidableAnd

/-- The flags of a page of a block. -/
def flags (b : Block) (i : ℕ) : BitVec 32 :=
  alloc ||| (if b.huge ∧ i = b.start then allocHuge else 0) |||
    (if b.poison then poisonAfterFree else 0)

theorem has_start (b : Block) : b.Has b.start := by
  refine ⟨Nat.le_refl _, ?_⟩
  unfold size
  split <;> simp [kb]

theorem has_single {b : Block} (h : b.huge = false) {i : ℕ} : b.Has i ↔ i = b.start := by
  simp only [Has, size, h, Bool.false_eq_true, if_false]
  omega

theorem has_huge {b : Block} (h : b.huge = true) {i : ℕ} :
    b.Has i ↔ b.start ≤ i ∧ i < b.start + kb := by
  simp only [Has, size, h, if_true]

end Block

/-- **The invariant of the allocator**, for the blocks that are out and the list of free frames. -/
structure AllocInv (s : Mm) (live : List Block) (l : List ℕ) : Prop where
  chain : Chain s.link s.pageFreeList l
  listed : ∀ i ∈ l, 3 ≤ i ∧ i < s.npages ∧ (s.pages i).pageFlags = 0 ∧ (s.pages i).ppRef = 0
  aligned : ∀ b ∈ live, b.huge = true → kb ∣ b.start
  low : ∀ b ∈ live, 3 ≤ b.start
  bound : ∀ b ∈ live, b.start + b.size ≤ s.npages
  held : ∀ b ∈ live, ∀ i, b.Has i → (s.pages i).pageFlags = b.flags i ∧ s.link i = none
  apart : live.Pairwise fun b c => ∀ i, b.Has i → ¬ c.Has i
  rest : ∀ i ∉ l, (∀ b ∈ live, ¬ b.Has i) →
    s.link i = none ∧ ((s.pages i).pageFlags = 0 ∨ (s.pages i).pageFlags = alloc)
  hole : (s.pages 160).pageFlags = alloc ∧ ∀ b ∈ live, ¬ b.Has 160

theorem Block.flags_ne_zero (b : Block) (i : ℕ) : b.flags i ≠ 0 := by
  unfold Block.flags
  split <;> split <;> decide

theorem Block.flags_has_alloc (b : Block) (i : ℕ) : (b.flags i &&& alloc != 0) = true := by
  unfold Block.flags
  split <;> split <;> decide

namespace AllocInv

variable {s : Mm} {live : List Block} {l : List ℕ}

/-- There is enough fuel for every walk along the list. -/
theorem length_le (h : AllocInv s live l) : l.length ≤ s.npages := by
  have hsub : l ⊆ List.range s.npages := by
    intro i hi
    exact List.mem_range.2 (h.listed i hi).2.1
  have hle := List.Nodup.length_le_of_subset h.chain.nodup hsub
  rwa [List.length_range] at hle

theorem not_mem_of_has (h : AllocInv s live l) {b : Block} (hb : b ∈ live) {i : ℕ} (hi : b.Has i) :
    i ∉ l := by
  intro hmem
  have h₀ := (h.listed i hmem).2.2.1
  rw [(h.held b hb i hi).1] at h₀
  exact b.flags_ne_zero i h₀

/-- A frame without `ALLOC` is on the list or belongs to nobody, and its flags are clear. -/
theorem flags_of_not_alloc (h : AllocInv s live l) {i : ℕ}
    (hi : (s.pages i).has alloc = false) :
    (s.pages i).pageFlags = 0 ∧ ∀ b ∈ live, ¬ b.Has i := by
  have hout : ∀ b ∈ live, ¬ b.Has i := by
    intro b hb hbi
    rw [PageInfo.has, (h.held b hb i hbi).1, b.flags_has_alloc i] at hi
    exact absurd hi (by simp)
  refine ⟨?_, hout⟩
  by_cases hl : i ∈ l
  · exact (h.listed i hl).2.2.1
  · rcases (h.rest i hl hout).2 with h₀ | h₁
    · exact h₀
    · rw [PageInfo.has, h₁] at hi
      exact absurd hi (by decide)

end AllocInv

/-! ### Handing out a block -/

/-- The part of a list that is not in a block. -/
def Block.outside (b : Block) (l : List ℕ) : List ℕ := l.filter fun i => !decide (b.Has i)

theorem Block.mem_outside {b : Block} {l : List ℕ} {i : ℕ} :
    i ∈ b.outside l ↔ i ∈ l ∧ ¬ b.Has i := by
  simp [Block.outside]

theorem Block.outside_single {b : Block} {l : List ℕ} (hb : b.huge = false) (hnd : l.Nodup) :
    b.outside l = l.erase b.start := by
  rw [hnd.erase_eq_filter, Block.outside]
  refine List.filter_congr fun i _ => ?_
  have hi := Block.has_single (i := i) hb
  rw [Bool.eq_iff_iff]
  simp [hi]

/-- **Frames that are not `ALLOC` become a block.**  Everything is said about the fields the
invariant reads, so that zeroing the pages does not matter. -/
theorem AllocInv.take {s s' : Mm} {live : List Block} {l : List ℕ} {b : Block}
    (h : AllocInv s live l) (hal : b.huge = true → kb ∣ b.start) (hlow : 3 ≤ b.start)
    (hbound : b.start + b.size ≤ s.npages)
    (hfree : ∀ i, b.Has i → (s.pages i).has alloc = false)
    (hnp : s'.npages = s.npages) (hchain : Chain s'.link s'.pageFreeList (b.outside l))
    (hoff : ∀ i ∉ l, s'.link i = s.link i) (hout : ∀ i ∈ l, b.Has i → s'.link i = none)
    (hflag : ∀ i, b.Has i → (s'.pages i).pageFlags = b.flags i)
    (hflags : ∀ i, ¬ b.Has i → (s'.pages i).pageFlags = (s.pages i).pageFlags)
    (href : ∀ i, (s'.pages i).ppRef = (s.pages i).ppRef) :
    AllocInv s' (b :: live) (b.outside l) := by
  have hfresh : ∀ i, b.Has i → ∀ c ∈ live, ¬ c.Has i :=
    fun i hi => (h.flags_of_not_alloc (hfree i hi)).2
  refine
    { chain := hchain, listed := ?_, aligned := ?_, low := ?_, bound := ?_, held := ?_,
      apart := ?_, rest := ?_, hole := ?_ }
  · intro i hi
    obtain ⟨hil, hib⟩ := Block.mem_outside.1 hi
    rw [hnp, hflags i hib, href i]
    exact h.listed i hil
  · intro c hc
    rcases List.mem_cons.1 hc with rfl | hc
    · exact hal
    · exact h.aligned c hc
  · intro c hc
    rcases List.mem_cons.1 hc with rfl | hc
    · exact hlow
    · exact h.low c hc
  · intro c hc
    rw [hnp]
    rcases List.mem_cons.1 hc with rfl | hc
    · exact hbound
    · exact h.bound c hc
  · intro c hc i hi
    rcases List.mem_cons.1 hc with rfl | hc
    · refine ⟨hflag i hi, ?_⟩
      by_cases hil : i ∈ l
      · exact hout i hil hi
      · rw [hoff i hil]
        exact (h.rest i hil (hfresh i hi)).1
    · have hib : ¬ b.Has i := fun hib => hfresh i hib c hc hi
      rw [hflags i hib, hoff i (h.not_mem_of_has hc hi)]
      exact h.held c hc i hi
  · refine List.pairwise_cons.2 ⟨?_, h.apart⟩
    intro c hc i hi hci
    exact hfresh i hi c hc hci
  · intro i hi hout'
    have hib : ¬ b.Has i := hout' b (by simp)
    have hil : i ∉ l := fun hil => hi (Block.mem_outside.2 ⟨hil, hib⟩)
    rw [hoff i hil, hflags i hib]
    exact h.rest i hil fun c hc => hout' c (List.mem_cons_of_mem _ hc)
  · have h160 : ¬ b.Has 160 := by
      intro hhas
      have hno := hfree 160 hhas
      rw [PageInfo.has, h.hole.1] at hno
      exact absurd hno (by decide)
    refine ⟨by rw [hflags 160 h160]; exact h.hole.1, ?_⟩
    intro c hc hhas
    rcases List.mem_cons.1 hc with rfl | hc
    · exact h160 hhas
    · exact h.hole.2 c hc hhas

/-- Removing one page from the list and from the counter keeps the drift. -/
theorem drift_erase {s s' : Mm} {l : List ℕ} {pp : ℕ} (hmem : pp ∈ l) {d : BitVec 32}
    (hcount : s'.freePagesCount = s.freePagesCount - d) :
    drift s' (l.erase pp) = drift s l + (1 - d) := by
  have hpos : 0 < l.length := List.length_pos_of_mem hmem
  have hlen : BitVec.ofNat 32 l.length = BitVec.ofNat 32 (l.length - 1) + 1#32 := by
    rw [← BitVec.ofNat_add, Nat.sub_add_cancel hpos]
  rw [drift, drift, hcount, List.length_erase_of_mem hmem, hlen]
  bv_omega

theorem kaddr_page2pa {s : Mm} {pp : ℕ} (h : pp < s.npages) :
    kaddr s.npages (page2pa pp) = Except.ok (page2pa pp + kernBase) := by
  unfold kaddr
  rw [if_neg]
  · rfl
  · rw [pgnum_page2pa, Nat.mod_eq_of_lt (by have := s.npages_le; omega)]
    omega

/-- Filling a page that exists changes nothing but its bytes. -/
theorem memsetPage_eq {s : Mm} {pp : ℕ} (h : pp < s.npages) (v : BitVec 8) :
    memsetPage s pp v = Except.ok { s with mem := Function.update s.mem pp fun _ => v } := by
  unfold memsetPage
  rw [kaddr_page2pa h]
  rfl

/-- The block a request for one page asks for. -/
def singleBlock (flags : BitVec 32) (pp : ℕ) : Block :=
  ⟨pp, false, decide (flags &&& poisonAfterFree ≠ 0)⟩

/-- The rest of `page_alloc` after a listed page came off the list. -/
theorem pageAllocFinish_ends {s s₁ : Mm} {live : List Block} {l : List ℕ} {pp : ℕ}
    {flags : BitVec 32} (h : AllocInv s live l) (hmem : pp ∈ l) (hun : Unlinked s s₁ l pp) :
    Ends (CounterAssert s l)
      (fun r => r.1 = some pp ∧ AllocInv r.2 (singleBlock flags pp :: live) (l.erase pp) ∧
        r.2.freePagesCount = s₁.freePagesCount ∧ r.2.premappedFlag = s.premappedFlag)
      (pageAllocFinish flags (some pp) s₁) := by
  have hl := h.listed pp hmem
  have hflags₁ : (s₁.pages pp).pageFlags = 0 := by rw [hun.flags pp]; exact hl.2.2.1
  have hsingle : ∀ i, (singleBlock flags pp).Has i ↔ i = pp :=
    fun i => Block.has_single (b := singleBlock flags pp) rfl
  have houtside : (singleBlock flags pp).outside l = l.erase pp :=
    Block.outside_single (b := singleBlock flags pp) rfl h.chain.nodup
  -- the page as it is left by the two marks, whatever is done to its bytes
  have key : ∀ (f : PageInfo → PageInfo) (m : ℕ → ℕ → BitVec 8),
      (∀ p, (f p).ppLink = p.ppLink ∧ (f p).ppRef = p.ppRef) →
      (f (s₁.pages pp)).pageFlags = (singleBlock flags pp).flags pp →
      AllocInv { s₁.modPage pp f with mem := m } (singleBlock flags pp :: live) (l.erase pp) := by
    intro f m hf hfl
    have hlink : (s₁.modPage pp f).link = s₁.link := Mm.link_modPage s₁ pp fun p => (hf p).1
    have hchain : Chain (s₁.modPage pp f).link s₁.pageFreeList
        ((singleBlock flags pp).outside l) := by
      rw [hlink, houtside]
      exact hun.chain
    rw [← houtside]
    refine AllocInv.take h (fun hb => ?_) hl.1 ?_ ?_ hun.npages hchain ?_ ?_ ?_ ?_ ?_
    · exact absurd hb (by simp [singleBlock])
    · exact hl.2.1
    · intro i hi
      rw [(hsingle i).1 hi, PageInfo.has, hl.2.2.1]
      rfl
    · intro i hi
      change (s₁.modPage pp f).link i = _
      rw [hlink]
      exact hun.off i hi
    · intro i hi hib
      change (s₁.modPage pp f).link i = _
      rw [hlink, (hsingle i).1 hib]
      exact hun.out hmem
    · intro i hi
      rw [(hsingle i).1 hi]
      change ((s₁.modPage pp f).pages pp).pageFlags = _
      rw [Mm.modPage_self]
      exact hfl
    · intro i hi
      change ((s₁.modPage pp f).pages i).pageFlags = _
      rw [Mm.modPage_of_ne s₁ f (by rwa [hsingle] at hi)]
      exact hun.flags i
    · intro i
      change ((s₁.modPage pp f).pages i).ppRef = _
      by_cases hi : i = pp
      · subst hi
        rw [Mm.modPage_self, (hf _).2]
        exact hun.ref i
      · rw [Mm.modPage_of_ne s₁ f hi]
        exact hun.ref i
  have hnp : pp < s₁.npages := by rw [hun.npages]; exact hl.2.1
  unfold pageAllocFinish
  dsimp only
  rw [if_neg (by simp [PageInfo.has, hflags₁])]
  simp only [pure_bind, ends_bind]
  unfold markPoison
  by_cases hp : flags &&& poisonAfterFree ≠ 0
  · have hfl : (PageInfo.set alloc (PageInfo.set poisonAfterFree (s₁.pages pp))).pageFlags =
        (singleBlock flags pp).flags pp := by
      simp only [PageInfo.set, hflags₁, singleBlock, Block.flags, decide_eq_true hp]
      decide
    rw [if_pos hp, if_neg (by simp [PageInfo.has, hflags₁])]
    simp only [ends_pure, Mm.modPage_modPage]
    refine ends_ite (fun _ => ?_) (fun _ => ?_)
    · rw [memsetPage_eq (by simpa using hnp)]
      exact ⟨rfl, key _ _ (fun _ => ⟨rfl, rfl⟩) hfl, rfl, hun.premapped⟩
    · exact ⟨rfl, key (fun p => PageInfo.set alloc (PageInfo.set poisonAfterFree p)) s₁.mem
        (fun _ => ⟨rfl, rfl⟩) hfl, rfl, hun.premapped⟩
  · have hfl : (PageInfo.set alloc (s₁.pages pp)).pageFlags =
        (singleBlock flags pp).flags pp := by
      simp only [PageInfo.set, hflags₁, singleBlock, Block.flags, decide_eq_false hp]
      decide
    rw [if_neg hp]
    simp only [ends_pure]
    refine ends_ite (fun _ => ?_) (fun _ => ?_)
    · rw [memsetPage_eq (by simpa using hnp)]
      exact ⟨rfl, key _ _ (fun _ => ⟨rfl, rfl⟩) hfl, rfl, hun.premapped⟩
    · exact ⟨rfl, key (PageInfo.set alloc) s₁.mem (fun _ => ⟨rfl, rfl⟩) hfl, rfl, hun.premapped⟩

/-! ### Handing out a huge block -/

/-- The list without the first `k` pages of the block at `hp`. -/
def restList (l : List ℕ) (hp k : ℕ) : List ℕ := l.filter fun i => !decide (hp ≤ i ∧ i < hp + k)

theorem mem_restList {l : List ℕ} {hp k i : ℕ} :
    i ∈ restList l hp k ↔ i ∈ l ∧ ¬ (hp ≤ i ∧ i < hp + k) := by
  rw [restList, List.mem_filter, Bool.not_eq_true', decide_eq_false_iff_not]

theorem restList_zero (l : List ℕ) (hp : ℕ) : restList l hp 0 = l := by
  refine List.filter_eq_self.2 fun i _ => ?_
  rw [Bool.not_eq_true', decide_eq_false_iff_not]
  omega

theorem restList_succ {l : List ℕ} (hnd : l.Nodup) (hp k : ℕ) :
    restList l hp (k + 1) = (restList l hp k).erase (hp + k) := by
  rw [restList, restList, (hnd.filter _).erase_eq_filter, List.filter_filter]
  refine List.filter_congr fun i _ => ?_
  rw [Bool.eq_iff_iff]
  simp only [Bool.not_eq_true', decide_eq_false_iff_not, Bool.and_eq_true, bne_iff_ne]
  omega

/-- The flags of page `i` when the loop over the block at `hp` has done `k` rounds. -/
def roundFlags (hp k i : ℕ) (old : BitVec 32) : BitVec 32 :=
  if i < hp ∨ hp + kb ≤ i then old
  else (if i = hp then allocHuge else 0) ||| (if i < hp + k then alloc else 0)

/-- **The invariant of the loop of a huge allocation**: the first `k` pages of the block at `hp`
are off the list and `ALLOC`, and the head carries `ALLOC_HUGE`. -/
structure Carved (s s' : Mm) (l : List ℕ) (hp k : ℕ) : Prop where
  npages : s'.npages = s.npages
  premapped : s'.premappedFlag = s.premappedFlag
  chain : Chain s'.link s'.pageFreeList (restList l hp k)
  off : ∀ i ∉ l, s'.link i = s.link i
  out : ∀ i ∈ l, hp ≤ i → i < hp + k → s'.link i = none
  flags : ∀ i, (s'.pages i).pageFlags = roundFlags hp k i (s.pages i).pageFlags
  ref : ∀ i, (s'.pages i).ppRef = (s.pages i).ppRef
  drift : drift s' (restList l hp k) = Jos.drift s l

theorem Carved.setMem {s s' : Mm} {l : List ℕ} {hp k : ℕ} (h : Carved s s' l hp k)
    (m : ℕ → ℕ → BitVec 8) : Carved s { s' with mem := m } l hp k where
  npages := h.npages
  premapped := h.premapped
  chain := h.chain
  off := h.off
  out := h.out
  flags := h.flags
  ref := h.ref
  drift := h.drift

/-- A page of the block that the loop has not reached is marked, then unlinked. -/
theorem Carved.succ {s s' s'' : Mm} {l : List ℕ} {hp k : ℕ} (h : Carved s s' l hp k)
    (hnd : l.Nodup) (hk : k < kb)
    (hun : Unlinked (s'.modPage (hp + k) (PageInfo.set alloc)) s'' (restList l hp k) (hp + k))
    (hcount : s''.freePagesCount =
      s'.freePagesCount - (if hp + k ∈ restList l hp k then 1 else 0)) :
    Carved s s'' l hp (k + 1) := by
  have hlink : (s'.modPage (hp + k) (PageInfo.set alloc)).link = s'.link :=
    Mm.link_modPage s' _ fun _ => rfl
  have hlow : ∀ i ∉ restList l hp k, s''.link i = s'.link i := by
    intro i hi
    rw [hun.off i hi, hlink]
  refine
    { npages := by rw [hun.npages]; exact h.npages
      premapped := by rw [hun.premapped]; exact h.premapped
      chain := by rw [restList_succ hnd]; exact hun.chain
      off := ?_, out := ?_, flags := ?_, ref := ?_, drift := ?_ }
  · intro i hi
    rw [hlow i fun hmem => hi (mem_restList.1 hmem).1]
    exact h.off i hi
  · intro i hil hi hik
    by_cases heq : i = hp + k
    · subst heq
      exact hun.out (mem_restList.2 ⟨hil, by omega⟩)
    · have hout := h.out i hil hi (by omega)
      rw [hlow i fun hmem => (mem_restList.1 hmem).2 ⟨hi, by omega⟩]
      exact hout
  · intro i
    rw [hun.flags i]
    by_cases heq : i = hp + k
    · subst heq
      have hin : ¬ (hp + k < hp ∨ hp + kb ≤ hp + k) := by omega
      have hsucc : hp + k < hp + (k + 1) := by omega
      rw [Mm.modPage_self]
      simp only [PageInfo.set, h.flags, roundFlags, hin, hsucc, Nat.lt_irrefl, if_false, if_true]
      simp
    · rw [Mm.modPage_of_ne _ _ heq, h.flags i]
      unfold roundFlags
      by_cases hin : i < hp ∨ hp + kb ≤ i
      · rw [if_pos hin, if_pos hin]
      · have hiff : i < hp + k ↔ i < hp + (k + 1) := by omega
        simp only [hin, if_false, hiff]
  · intro i
    rw [hun.ref i]
    by_cases heq : i = hp + k
    · subst heq
      rw [Mm.modPage_self]
      exact h.ref (hp + k)
    · rw [Mm.modPage_of_ne _ _ heq]
      exact h.ref i
  · rw [restList_succ hnd, ← h.drift]
    by_cases hmem : hp + k ∈ restList l hp k
    · rw [if_pos hmem] at hcount
      rw [drift_erase hmem hcount]
      simp
    · rw [if_neg hmem] at hcount
      rw [List.erase_of_not_mem hmem, Jos.drift, Jos.drift, hcount]
      simp

/-- One round of the loop, without a request for poisoning. -/
theorem allocHugeRound_ends {s s' : Mm} {live : List Block} {l : List ℕ} {hp k : ℕ}
    {flags : BitVec 32} (h : AllocInv s live l) (hc : Carved s s' l hp k) (hk : k < kb)
    (hnp : hp + kb ≤ s.npages) (hpois : flags &&& poisonAfterFree = 0) :
    Ends (CounterAssert s l) (fun s'' => Carved s s'' l hp (k + 1))
      (allocHugeRound flags hp s' (hp + k)) := by
  have hfl : (s'.pages (hp + k)).pageFlags = if k = 0 then allocHuge else 0 := by
    rw [hc.flags, roundFlags, if_neg (by omega)]
    by_cases h0 : k = 0
    · simp [h0]
    · simp [h0]
  have hlen : (restList l hp k).length ≤ s'.npages := by
    rw [hc.npages]
    exact (List.length_filter_le _ _).trans h.length_le
  have hremove : ∀ m : ℕ → ℕ → BitVec 8, Ends (CounterAssert s l)
      (fun s'' => Carved s s'' l hp (k + 1))
      (removeElementPfl ({ s' with mem := m }.modPage (hp + k) (PageInfo.set alloc)) (hp + k)) := by
    intro m
    have hc' := hc.setMem m
    have hchain : Chain ({ s' with mem := m }.modPage (hp + k) (PageInfo.set alloc)).link
        s'.pageFreeList (restList l hp k) := by
      rw [Mm.link_modPage { s' with mem := m } (hp + k) (f := PageInfo.set alloc) fun _ => rfl]
      exact hc'.chain
    refine (removeElementPfl_ends hchain hlen).mono (fun c hcr => ⟨hcr.1, ?_⟩) ?_
    · rw [← hc.drift]
      have hle : (restList l hp k).length ≤ l.length := List.length_filter_le _ _
      exact ⟨hcr.2.1, hcr.2.2.trans (Nat.add_le_add_left hle _)⟩
    rintro s'' ⟨hun, hcount⟩
    exact hc'.succ h.chain.nodup hk hun hcount
  unfold allocHugeRound markPoison
  rw [if_neg (by simpa using hpois)]
  have hnotHuge : ¬ (hp + k ≠ hp ∧ (s'.pages (hp + k)).has allocHuge = true) := by
    rintro ⟨hne, hhas⟩
    rw [PageInfo.has, hfl, if_neg (by omega)] at hhas
    exact absurd hhas (by decide)
  have hnotAlloc : ¬ (s'.pages (hp + k)).has alloc = true := by
    rw [PageInfo.has, hfl]
    split <;> decide
  rw [pure_bind, if_neg hnotHuge]
  dsimp only
  rw [if_neg hnotAlloc]
  refine ends_ite (fun _ => ?_) (fun _ => ?_)
  · rw [memsetPage_eq (by rw [hc.npages]; omega)]
    exact hremove _
  · exact hremove s'.mem

/-- The block a huge request asks for. -/
def hugeBlock (hp : ℕ) : Block := ⟨hp, true, false⟩

theorem restList_kb (l : List ℕ) (hp : ℕ) : restList l hp kb = (hugeBlock hp).outside l := rfl

/-- Only the I/O hole keeps a huge block away from the reserved frames. -/
theorem AllocInv.three_le {s : Mm} {live : List Block} {l : List ℕ} (h : AllocInv s live l)
    {hp : ℕ} (hal : kb ∣ hp) (hfree : ∀ i, hp ≤ i → i < hp + kb → (s.pages i).has alloc = false) :
    3 ≤ hp := by
  rcases Nat.eq_zero_or_pos hp with rfl | hpos
  · have hno := hfree 160 (by omega) (by decide)
    rw [PageInfo.has, h.hole.1] at hno
    exact absurd hno (by decide)
  · have hle := Nat.le_of_dvd hpos hal
    have hkb : kb = 1024 := rfl
    omega

/-- The loop is entered with the head of the block marked `ALLOC_HUGE`. -/
theorem AllocInv.carved_zero {s : Mm} {live : List Block} {l : List ℕ} (h : AllocInv s live l)
    {hp : ℕ} (hfree : ∀ i, hp ≤ i → i < hp + kb → (s.pages i).pageFlags = 0) :
    Carved s (s.modPage hp (PageInfo.set allocHuge)) l hp 0 := by
  have hlink : (s.modPage hp (PageInfo.set allocHuge)).link = s.link :=
    Mm.link_modPage s _ fun _ => rfl
  refine
    { npages := rfl, premapped := rfl, chain := ?_, off := ?_, out := ?_, flags := ?_, ref := ?_,
      drift := ?_ }
  · rw [restList_zero, hlink]
    exact h.chain
  · intro i _
    rw [hlink]
  · intro i _ hi hi'
    omega
  · intro i
    unfold roundFlags
    by_cases heq : i = hp
    · subst heq
      have hin : ¬ (i < i ∨ i + kb ≤ i) := by simp [kb]
      rw [Mm.modPage_self, if_neg hin]
      simp [PageInfo.set, hfree i (Nat.le_refl i) (by simp [kb])]
    · rw [Mm.modPage_of_ne _ _ heq]
      by_cases hin : i < hp ∨ hp + kb ≤ i
      · rw [if_pos hin]
      · rw [if_neg hin, hfree i (by omega) (by omega), if_neg heq, if_neg (by omega)]
        rfl
  · intro i
    by_cases heq : i = hp
    · subst heq
      rw [Mm.modPage_self]
      rfl
    · rw [Mm.modPage_of_ne _ _ heq]
  · rw [restList_zero]
    rfl

/-- After the last round the block is out. -/
theorem Carved.take {s s' : Mm} {live : List Block} {l : List ℕ} {hp : ℕ}
    (hc : Carved s s' l hp kb) (h : AllocInv s live l) (hal : kb ∣ hp) (hnp : hp + kb ≤ s.npages)
    (hfree : ∀ i, hp ≤ i → i < hp + kb → (s.pages i).has alloc = false) :
    AllocInv s' (hugeBlock hp :: live) ((hugeBlock hp).outside l) := by
  have hhas : ∀ i, (hugeBlock hp).Has i ↔ hp ≤ i ∧ i < hp + kb := fun i => Iff.rfl
  refine h.take (fun _ => hal) (h.three_le hal hfree) hnp (fun i hi => hfree i hi.1 hi.2)
    hc.npages (by rw [← restList_kb]; exact hc.chain) hc.off ?_ ?_ ?_ hc.ref
  · intro i hil hi
    exact hc.out i hil hi.1 hi.2
  · intro i hi
    obtain ⟨hlo, hhi⟩ := (hhas i).1 hi
    rw [hc.flags i, roundFlags, if_neg (by omega), if_pos hhi]
    by_cases heq : i = hp
    · subst heq
      simp only [Block.flags, hugeBlock, and_self, if_true, Bool.false_eq_true, if_false]
      decide
    · simp [Block.flags, hugeBlock, heq]
  · intro i hi
    rw [hhas] at hi
    rw [hc.flags i, roundFlags, if_pos (by omega)]

/-! ### The allocation as a whole -/

/-- The block a successful request is answered with. -/
def blockOf (flags : BitVec 32) (pp : ℕ) : Block :=
  ⟨pp, decide (flags &&& allocHuge ≠ 0), decide (flags &&& poisonAfterFree ≠ 0)⟩

/-- The blocks that are out after a call that returned `r`. -/
def blocksAfter (flags : BitVec 32) (live : List Block) : Option ℕ → List Block
  | none => live
  | some pp => blockOf flags pp :: live

/-- The request takes the branch of `remove_element_4MB_pfl` that leaves the counter alone. -/
def SkipsCounter (s : Mm) (flags : BitVec 32) : Prop :=
  flags &&& allocHuge = 0 ∧ s.premappedFlag = true ∧ HeadBelow4MB s

instance (s : Mm) (flags : BitVec 32) : Decidable (SkipsCounter s flags) := instDecidableAnd

/-- How a request can crash: the assertion on the counter; a huge request for poisoning, which
always finds its own mark; and an ordinary one with no free frame below 4 MB, while only the first
4 MB are mapped. -/
def AllocCrash (s : Mm) (l : List ℕ) (flags : BitVec 32) (c : Crash) : Prop :=
  CounterAssert s l c ∨
    (c = .panic "page_alloc huge: PAGE TO ALLOC ALREADY MARKED AS POISON_AFTER_FREE" ∧
      flags &&& allocHuge ≠ 0 ∧ flags &&& poisonAfterFree ≠ 0) ∨
    (c = .nullDeref ∧ flags &&& allocHuge = 0 ∧ s.premappedFlag = true ∧
      ∀ i ∈ l, below4MB i = false)

/-- What a call of `page_alloc` leaves behind. -/
def AllocPost (s : Mm) (live : List Block) (l : List ℕ) (flags : BitVec 32) (r : Option ℕ × Mm) :
    Prop :=
  r.2.premappedFlag = s.premappedFlag ∧
    ∃ l', AllocInv r.2 (blocksAfter flags live r.1) l' ∧
      drift r.2 l' = drift s l + (if SkipsCounter s flags then 1 else 0)

/-- **`page_alloc` with `ALLOC_HUGE`.** -/
theorem pageAllocHuge_ends {s : Mm} {live : List Block} {l : List ℕ} {flags : BitVec 32}
    (h : AllocInv s live l) (hh : flags &&& allocHuge ≠ 0) :
    Ends (AllocCrash s l flags) (AllocPost s live l flags) (pageAllocHuge s flags) := by
  have hskip : ¬ SkipsCounter s flags := fun hs => hh hs.1
  unfold pageAllocHuge
  cases hfind : findHugePage s with
  | none => exact ⟨rfl, l, h, by simp [hskip]⟩
  | some hp =>
      obtain ⟨hal, hnp, hfree⟩ := findHugePage_spec hfind
      have hzero : ∀ i, hp ≤ i → i < hp + kb → (s.pages i).pageFlags = 0 :=
        fun i hi hi' => (h.flags_of_not_alloc (hfree i hi hi')).1
      have hhead : (s.pages hp).pageFlags = 0 := hzero hp (Nat.le_refl hp) (by simp [kb])
      dsimp only
      unfold markPoison
      by_cases hpois : flags &&& poisonAfterFree = 0
      · -- the loop runs to its end
        have hloop := ends_foldlM_range' (E := CounterAssert s l) (f := allocHugeRound flags hp)
          (a := hp) (P := fun k s' => Carved s s' l hp k) (n := kb) (h.carved_zero hzero)
          fun k hk s' hc => allocHugeRound_ends h hc hk hnp hpois
        rw [if_neg (not_not_intro hpois), pure_bind, if_neg (by simp [PageInfo.has, hhead]),
          ends_bind]
        refine hloop.mono (fun c hc => Or.inl hc) ?_
        intro s' hc
        have hblock : blockOf flags hp = hugeBlock hp := by
          simp only [blockOf, decide_eq_true hh, hpois, hugeBlock]
          simp
        refine ⟨hc.premapped, (hugeBlock hp).outside l, ?_, ?_⟩
        · simp only [blocksAfter, hblock]
          exact hc.take h hal hnp hfree
        · have hd := hc.drift
          rw [restList_kb] at hd
          simpa [hskip] using hd
      · -- the first round finds the mark that was set before the loop
        have hmark : PageInfo.has (PageInfo.set allocHuge (PageInfo.set poisonAfterFree
            (s.pages hp))) poisonAfterFree = true := by
          simp only [PageInfo.has, PageInfo.set, hhead]
          decide
        have hkb : kb = 1023 + 1 := rfl
        rw [if_pos hpois, if_neg (by simp [PageInfo.has, hhead]), pure_bind, Mm.modPage_self,
          if_neg (by simp only [PageInfo.has, PageInfo.set, hhead]; decide), hkb, List.range'_succ,
          List.foldlM_cons, allocHugeRound, markPoison, if_pos hpois,
          Mm.modPage_self, Mm.modPage_self, if_pos hmark]
        exact Or.inr (Or.inl ⟨rfl, hh, hpois⟩)

/-- While only the first 4 MB are mapped, a list without such a page gives no page at all. -/
theorem removeElement4MBPfl_of_high {s : Mm} {l : List ℕ} (h : Chain s.link s.pageFreeList l)
    (hlen : l.length ≤ s.npages) (hne : s.pageFreeList ≠ none)
    (hhigh : ∀ i ∈ l, below4MB i = false) : removeElement4MBPfl s = Except.ok (none, s) := by
  unfold removeElement4MBPfl
  cases hhd : s.pageFreeList with
  | none => exact absurd hhd hne
  | some hd =>
      rw [hhd] at h
      have hmem : hd ∈ l := by
        obtain ⟨l', rfl, -⟩ := chain_some.1 h
        simp
      dsimp only
      rw [if_neg (by simp [hhigh hd hmem]), h.seek_of_forall hlen hhigh]
      rfl

theorem blockOf_single {flags : BitVec 32} (hh : flags &&& allocHuge = 0) (pp : ℕ) :
    blockOf flags pp = singleBlock flags pp := by
  simp [blockOf, singleBlock, hh]

/-- **`page_alloc`**, for every request: what it does to the partition, and how it can crash. -/
theorem pageAlloc_ends {s : Mm} {live : List Block} {l : List ℕ} (flags : BitVec 32)
    (h : AllocInv s live l) :
    Ends (AllocCrash s l flags) (AllocPost s live l flags) (pageAlloc s flags) := by
  unfold pageAlloc
  refine ends_ite (fun hempty => ?_) (fun hne => ?_)
  · have hskip : ¬ SkipsCounter s flags := by
      rintro ⟨-, -, hd, hhd, -⟩
      rw [hempty] at hhd
      exact absurd hhd (by simp)
    exact ⟨rfl, l, h, by simp [hskip]⟩
  refine ends_ite (fun hh => pageAllocHuge_ends h hh) (fun hh => ?_)
  have hh : flags &&& allocHuge = 0 := not_not.1 hh
  refine ends_ite (fun hpre => ?_) (fun hpre => ?_)
  · rw [ends_bind]
    by_cases hlow : ∃ i ∈ l, below4MB i = true
    · refine (removeElement4MBPfl_ends h.chain h.length_le hlow).mono (fun c hc => Or.inl hc) ?_
      rintro ⟨pg0, s₁⟩ ⟨pp, rfl, hmem, hun, hcount⟩
      refine (pageAllocFinish_ends h hmem hun).mono (fun c hc => Or.inl hc) ?_
      rintro ⟨r, s₂⟩ ⟨rfl, hinv, hcount₂, hpre₂⟩
      refine ⟨hpre₂, l.erase pp, by rw [blocksAfter, blockOf_single hh]; exact hinv, ?_⟩
      rw [drift_erase hmem (hcount₂.trans hcount)]
      have hiff : SkipsCounter s flags ↔ HeadBelow4MB s := by simp [SkipsCounter, hh, hpre]
      by_cases hhead : HeadBelow4MB s
      · simp [hiff, hhead]
      · simp [hiff, hhead]
    · have hhigh : ∀ i ∈ l, below4MB i = false := by
        intro i hi
        cases hb : below4MB i with
        | false => rfl
        | true => exact absurd ⟨i, hi, hb⟩ hlow
      rw [removeElement4MBPfl_of_high h.chain h.length_le hne hhigh]
      exact Or.inr (Or.inr ⟨rfl, hh, hpre, hhigh⟩)
  · have hskip : ¬ SkipsCounter s flags := fun hs => hpre hs.2.1
    rw [ends_bind]
    refine (removeHeadPfl_ends h.chain h.length_le hne fun i hi => (h.listed i hi).2.2.2).mono
      (fun c hc => Or.inl hc) ?_
    rintro ⟨pp, s₁⟩ ⟨hmem, hun, hcount⟩
    refine (pageAllocFinish_ends h hmem hun).mono (fun c hc => Or.inl hc) ?_
    rintro ⟨r, s₂⟩ ⟨rfl, hinv, hcount₂, hpre₂⟩
    refine ⟨hpre₂, l.erase pp, by rw [blocksAfter, blockOf_single hh]; exact hinv, ?_⟩
    rw [drift_erase hmem (hcount₂.trans hcount)]
    simp [hskip]

/-- **A call of `page_alloc` that finds no frame** changes nothing, and for a single frame the free
list is empty. -/
theorem pageAlloc_none (m : Mm) (flags : BitVec 32) :
    Ends (fun _ => True)
      (fun r => r.1 = none → r.2 = m ∧ (flags &&& allocHuge = 0 → m.pageFreeList = none))
      (pageAlloc m flags) := by
  have hfinish : ∀ pg m', Ends (fun _ => True)
      (fun r => r.1 = none → r.2 = m ∧ (flags &&& allocHuge = 0 → m.pageFreeList = none))
      (pageAllocFinish flags pg m') := by
    intro pg m'
    unfold pageAllocFinish
    cases pg with
    | none => exact True.intro
    | some pp =>
        refine ends_ite (fun _ => True.intro) fun _ => ?_
        rw [ends_bind]
        refine Ends.of_forall (fun m₁ => ?_) _
        refine Ends.ite_bind (Ends.of_forall (fun m₂ => ?_) _)
        exact fun hc => nomatch hc
  unfold pageAlloc
  refine ends_ite (fun hnone _ => ⟨rfl, fun _ => hnone⟩) fun _ => ends_ite (fun hh => ?_)
    fun _ => ends_ite (fun _ => ?_) fun _ => ?_
  · unfold pageAllocHuge
    cases findHugePage m with
    | none => exact fun _ => ⟨rfl, fun hc => absurd hc hh⟩
    | some hp =>
        dsimp only
        rw [ends_bind]
        refine Ends.of_forall (fun m₁ => ?_) _
        refine ends_ite (fun _ => True.intro) fun _ => ?_
        rw [ends_bind]
        refine Ends.of_forall (fun m₂ => ?_) _
        exact fun hc => nomatch hc
  · rw [ends_bind]
    refine Ends.of_forall ?_ _
    rintro ⟨pg, m'⟩
    exact hfinish pg m'
  · rw [ends_bind]
    refine Ends.of_forall ?_ _
    rintro ⟨pg, m'⟩
    exact hfinish (some pg) m'

/-! ### Changes that the allocator does not see -/

/-- Another state with the same list and the same marks. -/
theorem AllocInv.congr {s s' : Mm} {live : List Block} {l : List ℕ} (h : AllocInv s live l)
    (hnp : s'.npages = s.npages) (hlink : s'.link = s.link)
    (hhead : s'.pageFreeList = s.pageFreeList)
    (hflags : ∀ i, (s'.pages i).pageFlags = (s.pages i).pageFlags)
    (href : ∀ i ∈ l, (s'.pages i).ppRef = (s.pages i).ppRef) : AllocInv s' live l := by
  refine
    { chain := ?_, listed := ?_, aligned := h.aligned, low := h.low, bound := ?_, held := ?_,
      apart := h.apart, rest := ?_, hole := ?_ }
  · rw [hlink, hhead]
    exact h.chain
  · intro i hi
    rw [hnp, hflags, href i hi]
    exact h.listed i hi
  · intro b hb
    rw [hnp]
    exact h.bound b hb
  · intro b hb i hi
    rw [hflags, hlink]
    exact h.held b hb i hi
  · intro i hi hout
    rw [hflags, hlink]
    exact h.rest i hi hout
  · rw [hflags]
    exact h.hole

/-- The invariant of the allocator does not see the reference count of a frame that is not free. -/
theorem AllocInv.setRef {s : Mm} {live : List Block} {l : List ℕ} (h : AllocInv s live l) {pp : ℕ}
    (hpp : pp ∉ l) (n : BitVec 16) :
    AllocInv (s.modPage pp fun p => { p with ppRef := n }) live l := by
  refine h.congr rfl (Mm.link_modPage s pp fun _ => rfl) rfl (fun i => ?_) fun i hi => ?_
  · by_cases hi : i = pp
    · subst hi
      rw [Mm.modPage_self]
    · rw [Mm.modPage_of_ne _ _ hi]
  · have hne : i ≠ pp := by
      rintro rfl
      exact hpp hi
    rw [Mm.modPage_of_ne _ _ hne]

end Jos
