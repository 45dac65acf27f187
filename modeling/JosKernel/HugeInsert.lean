/-
**4 MB pages over what was there.**

With `PTE_PS` in the permissions `page_insert` works on the entry of the directory, and calls
`page_remove` when it is present. But `page_remove` finds the page of the address alone. Where the
entry leads to a page table, one page of the table goes, and the table with all the others stays
allocated without being reachable.

Main definitions:

* `Jos.Mm.refsIn` — the references that a slot of the directory holds to a frame;
* `Jos.HugeSlot` — a slot of any kind, and a huge block that is not mapped;
* `Jos.HugeExact` — **the insertion and the removal of the block account for every frame**.

Main results:

* `Jos.releasePage_block`, `Jos.pageRemove_huge` — a huge block is released, a 4 MB page is removed;
* `Jos.hugeExact_iff` — **the accounts are exact if and only if the slot has no page table**.
-/

import JosKernel.ForkCopy
import JosKernel.TlbInsert

set_option relaxedAutoImplicit false
set_option autoImplicit false

namespace Jos

open LinkedList Outcome

/-! ### Releasing a huge block -/

/-- The lists of pages in use are as before. -/
structure KeepsLru (m m' : Mm) : Prop where
  npages : m'.npages = m.npages
  lruLists : m'.lruLists = m.lruLists
  lruLink : m'.lruLink = m.lruLink

namespace KeepsLru

variable {m m' m'' : Mm}

theorem trans (h : KeepsLru m m') (h' : KeepsLru m' m'') : KeepsLru m m'' :=
  ⟨h'.npages.trans h.npages, h'.lruLists.trans h.lruLists, h'.lruLink.trans h.lruLink⟩

theorem modPage (m : Mm) (pp : ℕ) {g : PageInfo → PageInfo} (hg : ∀ p, (g p).lruLink = p.lruLink) :
    KeepsLru m (m.modPage pp g) := by
  refine ⟨rfl, rfl, funext fun i => ?_⟩
  by_cases hi : i = pp
  · subst hi
    rw [Mm.lruLink, Mm.modPage_self, hg]
    rfl
  · rw [Mm.lruLink, Mm.modPage_of_ne _ _ hi]
    rfl

end KeepsLru

theorem addHeadPfl_keepsLru (m : Mm) (pp : ℕ) : KeepsLru m (addHeadPfl m pp) := by
  have hmod := @KeepsLru.modPage m pp (fun p =>
    { p with ppLink := m.pageFreeList, ppRef := 0, pageFlags := 0 }) fun _ => rfl
  exact ⟨hmod.npages, hmod.lruLists, hmod.lruLink⟩

theorem clearPoison_keepsLru (m : Mm) (pp : ℕ) :
    Ends (fun _ => True) (KeepsLru m) (clearPoison m pp) := by
  unfold clearPoison poisonPage memsetPage
  refine ends_ite (fun _ => ?_) fun _ => ⟨rfl, rfl, rfl⟩
  simp only [ends_bind, ends_pure]
  unfold kaddr
  refine ends_ite (fun _ => True.intro) fun _ => ?_
  have hmod := KeepsLru.modPage m pp (g := PageInfo.flip poisonAfterFree) fun _ => rfl
  exact ⟨hmod.npages, hmod.lruLists, hmod.lruLink⟩

theorem pageFree_keepsLru (m : Mm) (pp : ℕ) : Ends (fun _ => True) (KeepsLru m) (pageFree m pp) :=
  pageFree_keeps (R := KeepsLru) (fun _ _ _ => KeepsLru.trans)
    (fun m pp => ⟨.modPage m pp fun _ => rfl, .modPage m pp fun _ => rfl⟩)
    addHeadPfl_keepsLru clearPoison_keepsLru m pp

theorem AllocInv.lruOnly {m m' : Mm} {live : List Block} {l : List ℕ} (h : AllocInv m live l)
    (hlru : LruOnly m m') :
    AllocInv m' live l :=
  h.congr hlru.npages hlru.link hlru.freeList hlru.flags fun i _ => hlru.ref i

/-- **A huge block has been released**, and the other frames are as before. -/
structure Unblocked (m m' : Mm) (live : List Block) (l : List ℕ) (b : Block) : Prop where
  inv : AllocInv m' (live.erase b) (backList l b.start kb)
  steady : Steady m l → Steady m' (backList l b.start kb)
  ref : ∀ i, ¬ b.Has i → (m'.pages i).ppRef = (m.pages i).ppRef
  keeps : KeepsMem m m'

/-- **`lru_remove_el_list(pp); page_free(pp);`** of a huge block. -/
theorem releasePage_block {s : Vm} {live : List Block} {l : List ℕ} {b : Block}
    (h : AllocInv s.mm live l) (hb : b ∈ live) (hh : b.huge = true)
    (href : ∀ i, b.Has i → s.ref i = 0) :
    Ends (fun _ => ¬ Steady s.mm l)
      (fun s' => ∃ m, s' = { s with mm := m } ∧ Unblocked s.mm m live l b)
      (releasePage s b.start) := by
  unfold releasePage
  rw [ends_bind]
  refine (lruRemoveElList_ends s.mm l b.start).post ?_
  rintro ⟨found, m₁⟩ ⟨hlru, hst⟩
  have hlru : LruOnly s.mm m₁ := hlru
  have hst : Steady s.mm l → Steady m₁ l := hst
  have h₁ : AllocInv m₁ live l := h.lruOnly hlru
  have hkeep : KeepsMem s.mm m₁ := by
    refine ⟨hlru.npages, fun f hf => ⟨?_, congrFun hlru.mem f⟩⟩
    rw [PageInfo.has, hlru.flags]
    exact hf
  have href₁ : ∀ i, b.Has i → (m₁.pages i).ppRef = 0 := fun i hi => (hlru.ref i).trans (href i hi)
  obtain ⟨hfl, hlk⟩ := h₁.held b hb b.start b.has_start
  have hlink : (m₁.pages b.start).ppLink = none := hlk
  have hhead : (m₁.pages b.start).has allocHuge = true := by
    rw [PageInfo.has, hfl, b.flags_has_huge, hh]
    simp
  have hfree : Ends (fun _ => ¬ Steady s.mm l)
      (fun m => m.premappedFlag = m₁.premappedFlag ∧
        AllocInv m (live.erase b) (backList l b.start kb) ∧
        drift m (backList l b.start kb) = drift m₁ l ∧ ∀ i, ¬ b.Has i →
          m.pages i = m₁.pages i) (pageFree m₁ b.start) := by
    unfold pageFree
    rw [if_neg (not_not_intro (href₁ b.start b.has_start)), if_neg (not_not_intro hlink),
      if_pos hhead]
    refine (pageFree_huge_ends h₁ hb hh).mono ?_ fun _ h => h
    rintro _ ⟨i, hi, hne⟩
    exact absurd (href₁ i hi) hne
  simp only [ends_bind, ends_pure]
  refine ((hfree.and (pageFree_keepsLru m₁ b.start)).and (pageFree_keepsMem m₁ b.start)).mono
    (fun _ h => h.1.1) ?_
  rintro m ⟨⟨⟨hpre, hinv, hdrift, hframe⟩, hkl⟩, hkm⟩
  refine ⟨m, rfl, hinv, fun hs => ?_, fun i hi => ?_, hkeep.trans hkm⟩
  · obtain ⟨hpre₁, hd₁, hsound⟩ := hst hs
    exact ⟨hpre.trans hpre₁, hdrift.trans hd₁, hsound.congr hkl.npages hkl.lruLists hkl.lruLink⟩
  · rw [hframe i hi]
    exact hlru.ref i

/-! ### The setting -/

/-- A block of one frame, as `page_alloc` hands it out for a directory or a page table. -/
def pageBlock (f : ℕ) : Block := singleBlock 0 f

theorem pageBlock_has {f i : ℕ} : (pageBlock f).Has i ↔ i = f := Block.has_single rfl

theorem hugeBlock_has {f i : ℕ} : (hugeBlock f).Has i ↔ f ≤ i ∧ i < f + 1024 := Block.has_huge rfl

/-- **The references that the slot `i` of the directory `d` holds to the frame `g`**: one for a 4 MB
page, and one for each entry of a page table that maps `g`. -/
def Mm.refsIn (m : Mm) (d i g : ℕ) : ℕ :=
  if isPresent (m.word d i) then
    if isHuge (m.word d i) then if pgnum (m.word d i) = g then 1 else 0
    else ((Finset.range 1024).filter fun j => Maps (m.word (pgnum (m.word d i)) j) g).card
  else 0

/-- The slot `i` of the directory `d` is empty, leads to a page table or is a 4 MB page; and the
huge block at `f` has been allocated and is not mapped. -/
structure HugeSlot (s : Vm) (d i f : ℕ) (live : List Block) (l : List ℕ) : Prop where
  inv : AllocInv s.mm live l
  steady : Steady s.mm l
  root : pageBlock d ∈ live
  table : s.mm.HasTable d i → pageBlock (pgnum (s.mm.word d i)) ∈ live ∧
    ∀ j < 1024, pgnum (s.mm.word (pgnum (s.mm.word d i)) j) ≠ pgnum (s.mm.word d i)
  big : isPresent (s.mm.word d i) = true → isHuge (s.mm.word d i) = true →
    hugeBlock (pgnum (s.mm.word d i)) ∈ live ∧ s.ref (pgnum (s.mm.word d i)) ≠ 0 ∧
      ∀ j, (hugeBlock (pgnum (s.mm.word d i))).Has j → j ≠ pgnum (s.mm.word d i) → s.ref j = 0
  block : hugeBlock f ∈ live
  unmapped : ∀ j, (hugeBlock f).Has j → s.ref j = 0

/-- **The block at `f` has taken the place of what the slot held**: its 1024 frames are mapped in
their order, the frames that were mapped have lost the references of the slot and are free without
one, and a page table is free. -/
structure HugeExchanged (s s' : Vm) (d i f : ℕ) : Prop where
  pages : ∀ j < 1024, s'.mm.translate d (i * 1024 + j) = some (f + j, true)
  refs : ∀ g, 0 < s.mm.refsIn d i g → (s'.ref g).toNat + s.mm.refsIn d i g = (s.ref g).toNat
  freed : ∀ g, 0 < s.mm.refsIn d i g → s'.ref g = 0 → s'.mm.OnFreeList g
  table : s.mm.HasTable d i → s'.mm.OnFreeList (pgnum (s.mm.word d i))

/-- **The insertion and the removal of the huge block account for every frame.** -/
def HugeExact (s : Vm) (d f : ℕ) (va perm : BitVec 32) : Prop :=
  ∃ s₁, pageInsert s (some d) (some f) va perm = .ok (true, s₁) ∧ HugeExchanged s s₁ d (pdx va) f ∧
    ∃ s₂, pageRemove s₁ (some d) va = .ok s₂ ∧ s₂.mm.word d (pdx va) = 0 ∧ ∀ j < 1024,
      s₂.mm.OnFreeList (f + j)

/-! ### A 4 MB page is removed -/

/-- A 4 MB page in the slot `i`, in the huge block `b`. -/
structure BigSlot (s : Vm) (d i : ℕ) (b : Block) (live : List Block) (l : List ℕ) : Prop where
  inv : AllocInv s.mm live l
  steady : Steady s.mm l
  root : pageBlock d ∈ live
  present : isPresent (s.mm.word d i) = true
  huge : isHuge (s.mm.word d i) = true
  start : pgnum (s.mm.word d i) = b.start
  block : b ∈ live
  isBig : b.huge = true
  mapped : s.ref b.start ≠ 0
  others : ∀ j, b.Has j → j ≠ b.start → s.ref j = 0

/-- **The state without the 4 MB page**: it has lost one reference, and its block is free when that
was the last. -/
structure BigGone (s s' : Vm) (d i : ℕ) (b : Block) (live live' : List Block) (l l' : List ℕ) :
    Prop where
  inv : AllocInv s'.mm live' l'
  steady : Steady s'.mm l'
  kept : ∀ c ∈ live, c ≠ b → c ∈ live'
  ref : s'.ref b.start = s.ref b.start - 1
  refs : ∀ g, ¬ b.Has g → s'.ref g = s.ref g
  freed : s'.ref b.start = 0 → ∀ j, b.Has j → j ∈ l'
  zero : s'.mm.word d i = 0

theorem AllocInv.has_inj {m : Mm} {live : List Block} {l : List ℕ} (h : AllocInv m live l)
    {b c : Block} (hb : b ∈ live) (hc : c ∈ live) {i : ℕ} (hbi : b.Has i) (hci : c.Has i) :
    b = c := by
  by_contra hne
  exact (h.mem_erase hb ((List.mem_erase_of_ne (Ne.symm hne)).2 hc)).2 i hbi hci

/-- The frames of the directories and the page tables are not marked for poisoning. -/
theorem AllocInv.unmarked {m : Mm} {live : List Block} {l : List ℕ} (h : AllocInv m live l) {f : ℕ}
    (hf : pageBlock f ∈ live) :
    (m.pages f).has poisonAfterFree = false := by
  rw [PageInfo.has, (h.held _ hf f (pageBlock_has.2 rfl)).1]
  simp [pageBlock, singleBlock, Block.flags]
  decide

theorem pgdirFind_huge {s : Vm} {d : ℕ} {va : BitVec 32}
    (hP : isPresent (s.mm.word d (pdx va)) = true) (hH : isHuge (s.mm.word d (pdx va)) = true) :
    pgdirFind s (some d) va = .ok (some ⟨d, pdx va⟩) := by
  have hP' : isPresent (s.pte ⟨d, pdx va⟩) = true := hP
  have hH' : isHuge (s.pte ⟨d, pdx va⟩) = true := hH
  unfold pgdirFind
  dsimp only
  rw [if_pos hP', walkEnd, hH']
  rfl

theorem BigSlot.remove {s : Vm} {d : ℕ} {va : BitVec 32} {b : Block} {live : List Block}
    {l : List ℕ} (h : BigSlot s d (pdx va) b live l) :
    ∃ s' live' l', pageRemove s (some d) va = .ok s' ∧
      BigGone s s' d (pdx va) b live live' l l' := by
  have hstart : b.start < s.mm.npages := by
    have hbound := h.inv.bound b h.block
    have hsize : b.size = 1024 := by simp [Block.size, h.isBig, kb]
    omega
  have hlookup : pageLookup s (some d) va = .ok (some b.start) := by
    unfold pageLookup
    rw [if_neg (fun hc => by cases hc), pgdirFind_huge h.present h.huge]
    change (do
      let pp ← pa2page s.mm.npages (pteAddr (s.mm.word d (pdx va)))
      pure (some pp)) = _
    unfold pa2page
    rw [pgnum_pteAddr, h.start, if_neg (Nat.not_le.2 hstart)]
    rfl
  generalize hs₁ : s.setRef b.start (s.ref b.start - 1) = s₁
  have hout : b.start ∉ l := h.inv.not_mem_of_has h.block b.has_start
  have hinv₁ : AllocInv s₁.mm live l := by
    rw [← hs₁]
    exact h.inv.setRef hout _
  have hsteady₁ : Steady s₁.mm l := by
    rw [← hs₁]
    exact h.steady.setRef _
  have href₁ : ∀ g, s₁.ref g = if g = b.start then s.ref b.start - 1 else s.ref g := by
    intro g
    rw [← hs₁]
    exact Vm.ppRef_setRef ..
  have hword₁ : ∀ k, s₁.mm.word d k = s.mm.word d k := by
    intro k
    rw [← hs₁]
    rfl
  have hdb : ¬ b.Has d := by
    intro hc
    have hbig := h.isBig
    rw [h.inv.has_inj h.block h.root hc (pageBlock_has.2 rfl)] at hbig
    cases hbig
  -- the last lines, after the page has been released or not
  have hend : ∀ s₂ live' l', AllocInv s₂.mm live' l' → Steady s₂.mm l' →
      (∀ k, s₂.mm.word d k = s.mm.word d k) →
      (∀ c ∈ live, c ≠ b → c ∈ live') → s₂.ref b.start = s.ref b.start - 1 →
      (∀ g, ¬ b.Has g → s₂.ref g = s.ref g) →
      (s₂.ref b.start = 0 → ∀ j, b.Has j → j ∈ l') →
      ∃ s' live' l', clearEntry s₂ (some d) va = .ok s' ∧
        BigGone s s' d (pdx va) b live live' l l' := by
    intro s₂ live' l' hinv hst hword hkept href hrefs hfreed
    rw [clearEntry, pgdirFind_huge (by rw [hword]; exact h.present) (by rw [hword]; exact h.huge)]
    refine ⟨s₂.setPte ⟨d, pdx va⟩ 0, live', l', rfl, ?_, ?_, hkept, href, hrefs, hfreed, ?_⟩
    · exact hinv.congr rfl rfl rfl (fun _ => rfl) fun _ _ => rfl
    · exact hst.setWord 0 d (pdx va)
    · rw [Vm.word_setPte, if_pos ⟨rfl, rfl⟩]
  unfold pageRemove
  rw [if_neg (fun hc => by cases hc), hlookup]
  change ∃ s' live' l', (if s.ref b.start = 0 then throw
    (Crash.panic "page_remove: PAGE REF COUNT ALREADY 0")
    else do
      let s₂ ← if (s.setRef b.start (s.ref b.start - 1)).ref b.start = 0 then
          releasePage (s.setRef b.start (s.ref b.start - 1)) b.start
        else pure (s.setRef b.start (s.ref b.start - 1))
      clearEntry s₂ (some d) va) = .ok s' ∧ _
  rw [if_neg h.mapped, hs₁]
  have href₁' : s₁.ref b.start = s.ref b.start - 1 := (href₁ _).trans (if_pos rfl)
  by_cases hzero : s₁.ref b.start = 0
  · rw [if_pos hzero]
    have hrefs : ∀ i, b.Has i → s₁.ref i = 0 := by
      intro i hi
      by_cases hib : i = b.start
      · rw [hib]
        exact hzero
      · rw [href₁, if_neg hib]
        exact h.others i hi hib
    obtain ⟨s₂, hrel, m, rfl, hun⟩ :=
      (releasePage_block hinv₁ h.block h.isBig hrefs).exists_ok fun _ hns => hns hsteady₁
    rw [hrel]
    have hclear : ∀ j, b.Has j → j ∈ backList l b.start kb :=
      fun j hj => mem_backList.2 (Or.inl ((Block.has_huge h.isBig).1 hj))
    refine hend _ _ _ hun.inv (hun.steady hsteady₁) (fun k => ?_)
      (fun c hc hcb => (List.mem_erase_of_ne hcb).2 hc) ?_
      (fun g hg => ?_) fun _ => hclear
    · exact (Mm.word_of_mem (hun.keeps.mem d (hinv₁.unmarked h.root)).2 k).trans (hword₁ k)
    · rw [← href₁', hzero]
      exact (hun.inv.listed b.start (hclear _ b.has_start)).2.2.2
    · refine (hun.ref g hg).trans ((href₁ g).trans (if_neg ?_))
      rintro rfl
      exact hg b.has_start
  · rw [if_neg hzero]
    refine hend s₁ live l hinv₁ hsteady₁ hword₁ (fun c hc _ => hc) href₁' (fun g hg => ?_) fun hc =>
      absurd hc hzero
    refine (href₁ g).trans (if_neg ?_)
    rintro rfl
    exact hg b.has_start

/-! ### A huge block is inserted -/

theorem AllocInv.block_lt {m : Mm} {live : List Block} {l : List ℕ} (h : AllocInv m live l) {f : ℕ}
    (hf : hugeBlock f ∈ live) :
    f + 1024 ≤ m.npages ∧ f < 2 ^ 20 ∧ f % 1024 = 0 ∧ f ≠ 0 := by
  have hbound : f + 1024 ≤ m.npages := h.bound _ hf
  have hle := m.npages_le
  have hlow : 3 ≤ f := h.low _ hf
  exact ⟨hbound, by omega, Nat.mod_eq_zero_of_dvd (h.aligned _ hf rfl), by omega⟩

/-- The last lines of `page_insert`, for an entry of the directory. -/
theorem bigSlot_of_write {s : Vm} {d i f : ℕ} {va perm : BitVec 32} {live : List Block} {l : List ℕ}
    (hinv : AllocInv s.mm live l) (hst : Steady s.mm l) (hroot : pageBlock d ∈ live)
    (hblock : hugeBlock f ∈ live) (href : ∀ j, (hugeBlock f).Has j → s.ref j = 0)
    (hH : isHuge perm = true) (hperm : perm.toNat < 4096) {s' : Vm}
    (hs' : s' = (s.setRef f (s.ref f + 1)).writePte ⟨d, i⟩ va f (newPte f perm)) :
    BigSlot s' d i (hugeBlock f) live l ∧ s'.mm.word d i = newPte f perm ∧ s'.ref f = 1 ∧
      ∀ g ≠ f, s'.ref g = s.ref g := by
  have hout : f ∉ l := hinv.not_mem_of_has hblock (hugeBlock f).has_start
  have hword : s'.mm.word d i = newPte f perm := by
    rw [hs', Vm.word_writePte, if_pos ⟨rfl, rfl⟩]
  have hrefs : ∀ g, s'.ref g = if g = f then s.ref f + 1 else s.ref g := by
    intro g
    rw [hs']
    exact Vm.ppRef_setRef ..
  have hone : s'.ref f = 1 := by
    have hzero : s.ref f = 0 := href f (hugeBlock f).has_start
    rw [hrefs, if_pos rfl, hzero]
    rfl
  refine ⟨⟨?_, ?_, hroot, ?_, ?_, ?_, hblock, rfl, ?_, fun j hj hne => ?_⟩, hword, hone, fun g hg =>
    (hrefs g).trans (if_neg hg)⟩
  · rw [hs']
    exact (hinv.setRef hout (s.ref f + 1)).congr rfl rfl rfl (fun _ => rfl) fun _ _ => rfl
  · rw [hs']
    exact (hst.setRef _).setWord (newPte f perm) d i
  · rw [hword]
    exact isPresent_newPte ..
  · rw [hword, isHuge_newPte]
    exact hH
  · rw [hword]
    exact pgnum_newPte (hinv.block_lt hblock).2.1 hperm
  · change s'.ref f ≠ 0
    rw [hone]
    decide
  · exact (hrefs j).trans ((if_neg hne).trans (href j hj))

/-- A 4 MB page maps the 1024 frames of its block in their order. -/
theorem translate_newPte {m : Mm} {d i f : ℕ} {perm : BitVec 32}
    (hword : m.word d i = newPte f perm) (hf : f < 2 ^ 20) (hal : f % 1024 = 0)
    (hH : isHuge perm = true) (hperm : perm.toNat < 4096) {j : ℕ} (hj : j < 1024) :
    m.translate d (i * 1024 + j) = some (f + j, true) := by
  have hdiv : (i * 1024 + j) / 1024 = i := by omega
  have hmod : (i * 1024 + j) % 1024 = j := by omega
  have hleaf : m.leaf d (i * 1024 + j) = some (newPte f perm, true) := by
    unfold Mm.leaf
    rw [hdiv, hword, if_pos (isPresent_newPte ..), if_pos (by rw [isHuge_newPte]; exact hH)]
  rw [Mm.translate, hleaf]
  dsimp only
  rw [pgnum_newPte hf hperm, hmod, show f / 1024 * 1024 = f by omega]

section Insert

variable {s : Vm} {d f : ℕ} {va perm : BitVec 32} {live : List Block} {l : List ℕ}

/-- **`page_insert` into an empty slot.** -/
theorem HugeSlot.insert_empty (h : HugeSlot s d (pdx va) f live l) (hperm : perm.toNat < 4096)
    (hH : isHuge perm = true) (hP : isPresent perm = false)
    (habs : isPresent (s.mm.word d (pdx va)) = false) :
    ∃ s₁ live' l', pageInsert s (some d) (some f) va perm = .ok (true, s₁) ∧
      BigSlot s₁ d (pdx va) (hugeBlock f) live' l' ∧ s₁.ref f = 1 ∧
        HugeExchanged s s₁ d (pdx va) f := by
  obtain ⟨-, hf, hal, hf0⟩ := h.inv.block_lt h.block
  have hwalk : pgdirWalk s (some d) va .huge = .ok (some ⟨d, pdx va⟩, s.setPte ⟨d, pdx va⟩ 0) := by
    have hpte : ¬ isPresent (s.pte ⟨d, pdx va⟩) = true := by
      rw [Vm.pte, habs]
      exact Bool.false_ne_true
    unfold pgdirWalk
    dsimp only
    rw [if_neg hpte]
    rfl
  have hzero : (s.setPte ⟨d, pdx va⟩ 0).pte ⟨d, pdx va⟩ = 0 := by
    rw [Vm.pte, Vm.word_setPte, if_pos ⟨rfl, rfl⟩]
  have hre : pteAddr (0 : BitVec 32) ≠ page2pa f := by
    rw [Ne, pteAddr_eq_page2pa_iff hf]
    intro hc
    exact hf0 (hc.symm.trans (by decide))
  have hrun : pageInsert s (some d) (some f) va perm = .ok (true, ((s.setPte ⟨d, pdx va⟩ 0).setRef f
      ((s.setPte ⟨d, pdx va⟩ 0).ref f + 1)).writePte ⟨d, pdx va⟩ va f (newPte f perm)) := by
    unfold pageInsert
    dsimp only
    rw [if_neg (by rw [hP]; exact Bool.false_ne_true), if_pos hH, hwalk]
    change (do
      let s₁ ← if isPresent ((s.setPte ⟨d, pdx va⟩ 0).pte ⟨d, pdx va⟩) ∧
          pteAddr ((s.setPte ⟨d, pdx va⟩ 0).pte ⟨d, pdx va⟩) ≠ page2pa f
        then pageRemove (s.setPte ⟨d, pdx va⟩ 0) (some d) va else pure (s.setPte ⟨d, pdx va⟩ 0)
      pure (true, (if pteAddr ((s.setPte ⟨d, pdx va⟩ 0).pte ⟨d, pdx va⟩) ≠ page2pa f then s₁.setRef
        f (s₁.ref f + 1) else s₁).writePte
        ⟨d, pdx va⟩ va f (newPte f perm))) = _
    rw [hzero, if_neg fun hc => absurd hc.1 (by decide)]
    simp only [pure_bind]
    rw [if_pos hre]
    rfl
  have hinv : AllocInv (s.setPte ⟨d, pdx va⟩ 0).mm live l :=
    h.inv.congr rfl rfl rfl (fun _ => rfl) fun _ _ => rfl
  obtain ⟨hbig, hword, hone, hrefs⟩ :=
    bigSlot_of_write hinv (h.steady.setWord 0 d (pdx va)) h.root h.block h.unmapped hH hperm rfl
  have hnone : ∀ g, s.mm.refsIn d (pdx va) g = 0 := by
    intro g
    rw [Mm.refsIn, habs]
    rfl
  refine ⟨_, live, l, hrun, hbig, hone, fun j hj => translate_newPte hword hf hal hH hperm hj,
    fun g hg => ?_, fun g hg => ?_, fun ht => ?_⟩
  · rw [hnone] at hg
    exact absurd hg (Nat.lt_irrefl 0)
  · rw [hnone] at hg
    exact absurd hg (Nat.lt_irrefl 0)
  · rw [ht.1] at habs
    cases habs

/-- **`page_insert` over a 4 MB page.** -/
theorem HugeSlot.insert_big (h : HugeSlot s d (pdx va) f live l) (hperm : perm.toNat < 4096)
    (hH : isHuge perm = true) (hP : isPresent perm = false)
    (hpres : isPresent (s.mm.word d (pdx va)) = true)
    (hhuge : isHuge (s.mm.word d (pdx va)) = true) :
    ∃ s₁ live' l', pageInsert s (some d) (some f) va perm = .ok (true, s₁) ∧
      BigSlot s₁ d (pdx va) (hugeBlock f) live' l' ∧ s₁.ref f = 1 ∧
        HugeExchanged s s₁ d (pdx va) f := by
  obtain ⟨-, hf, hal, -⟩ := h.inv.block_lt h.block
  obtain ⟨hold, hmapped, hothers⟩ := h.big hpres hhuge
  generalize hg : pgnum (s.mm.word d (pdx va)) = g at hold hmapped hothers
  have hslot : BigSlot s d (pdx va) (hugeBlock g) live l :=
    ⟨h.inv, h.steady, h.root, hpres, hhuge, hg, hold, rfl, hmapped, hothers⟩
  obtain ⟨s₂, live', l', hrem, hun⟩ := hslot.remove
  have hgf : g ≠ f := by
    rintro rfl
    exact hmapped (h.unmapped _ (hugeBlock g).has_start)
  have hne : hugeBlock f ≠ hugeBlock g := fun hc => hgf (congrArg Block.start hc).symm
  have haside : ∀ j, (hugeBlock f).Has j → ¬ (hugeBlock g).Has j :=
    fun j hj hc => hne (h.inv.has_inj h.block hold hj hc)
  have hre : pteAddr (s.mm.word d (pdx va)) ≠ page2pa f := by
    rw [Ne, pteAddr_eq_page2pa_iff hf, hg]
    exact hgf
  have hwalk : pgdirWalk s (some d) va .huge = .ok (some ⟨d, pdx va⟩, s) := by
    have hpte : isPresent (s.pte ⟨d, pdx va⟩) = true := hpres
    unfold pgdirWalk
    dsimp only
    rw [if_pos hpte]
    rfl
  have hrun : pageInsert s (some d) (some f) va perm =
      .ok (true, (s₂.setRef f (s₂.ref f + 1)).writePte ⟨d, pdx va⟩ va f (newPte f perm)) := by
    unfold pageInsert
    dsimp only
    rw [if_neg (by rw [hP]; exact Bool.false_ne_true), if_pos hH, hwalk]
    change (do
      let s₁ ← if isPresent (s.mm.word d (pdx va)) = true ∧
          pteAddr (s.mm.word d (pdx va)) ≠ page2pa f
        then pageRemove s (some d) va else pure s
      pure (true, (if pteAddr (s.mm.word d (pdx va)) ≠ page2pa f then s₁.setRef f (s₁.ref f + 1)
        else s₁).writePte
        ⟨d, pdx va⟩ va f (newPte f perm))) = _
    rw [if_pos ⟨hpres, hre⟩, hrem]
    change Except.ok (true, (if pteAddr (s.mm.word d (pdx va)) ≠ page2pa f then s₂.setRef f
      (s₂.ref f + 1) else s₂).writePte
        ⟨d, pdx va⟩ va f (newPte f perm)) = _
    rw [if_pos hre]
  have hroot : pageBlock d ∈ live' := by
    refine hun.kept _ h.root fun hc => ?_
    exact nomatch (congrArg Block.huge hc : false = true)
  have hunmapped : ∀ j, (hugeBlock f).Has j → s₂.ref j = 0 := fun j hj =>
    (hun.refs j (haside j hj)).trans (h.unmapped j hj)
  obtain ⟨hbig, hword, hone, hrefs⟩ :=
    bigSlot_of_write hun.inv hun.steady hroot (hun.kept _ h.block hne) hunmapped hH hperm rfl
  have hcount : ∀ k, s.mm.refsIn d (pdx va) k = if g = k then 1 else 0 := by
    intro k
    rw [Mm.refsIn, if_pos hpres, if_pos hhuge, hg]
  have hmem : ∀ k, 0 < s.mm.refsIn d (pdx va) k → k = g := by
    intro k hk
    rw [hcount] at hk
    by_contra hc
    rw [if_neg (Ne.symm hc)] at hk
    exact absurd hk (Nat.lt_irrefl 0)
  refine ⟨_, live', l', hrun, hbig, hone, fun j hj => translate_newPte hword hf hal hH hperm hj,
    fun k hk => ?_, fun k hk hz => ?_,
    fun ht => ?_⟩
  · obtain rfl := hmem k hk
    have hlost : _ = s.ref k - 1 := (hrefs k hgf).trans hun.ref
    rw [hlost, hcount, if_pos rfl]
    have hne := hmapped
    bv_omega
  · obtain rfl := hmem k hk
    have hfree := hun.freed ((hrefs k hgf).symm.trans hz) k (hugeBlock k).has_start
    exact hbig.inv.freeInv.visits_iff.2 hfree
  · rw [ht.2] at hhuge
    exact nomatch hhuge

end Insert

/-! ### A page table is left behind -/

/-- The page table in the frame `t` is not on the free list. -/
def OffList (m : Mm) (t : ℕ) : Prop := ∃ l, FreeList m l ∧ t ∉ l

theorem OffList.not_onFreeList {m : Mm} {t : ℕ} (h : OffList m t) : ¬ m.OnFreeList t := by
  obtain ⟨l, hl, ht⟩ := h
  exact fun hc => ht (hl.chain.visits_iff.1 hc)

theorem OffList.congr {m m' : Mm} {t : ℕ} (h : OffList m t) (hnp : m'.npages = m.npages)
    (hlink : m'.link = m.link) (hhead : m'.pageFreeList = m.pageFreeList)
    (hflags : ∀ i, (m'.pages i).pageFlags = (m.pages i).pageFlags) : OffList m' t := by
  obtain ⟨l, hl, ht⟩ := h
  exact ⟨l, hl.congr hnp hlink hhead fun i _ => hflags i, ht⟩

theorem AllocInv.offList {m : Mm} {live : List Block} {l : List ℕ} (h : AllocInv m live l) {t : ℕ}
    (ht : pageBlock t ∈ live) :
    OffList m t :=
  ⟨l, h.freeInv.freeList, h.not_mem_of_has ht (pageBlock_has.2 rfl)⟩

/-- The first frame of a huge block is marked, and no other frame. -/
theorem AllocInv.block_of_huge {m : Mm} {live : List Block} {l : List ℕ} (h : AllocInv m live l)
    {g : ℕ} (hhead : (m.pages g).has allocHuge = true) :
    ∃ b ∈ live, b.huge = true ∧ b.start = g := by
  by_contra hnone
  have hflags : (m.pages g).pageFlags = 0 ∨ (m.pages g).pageFlags = alloc := by
    by_cases hl : g ∈ l
    · exact Or.inl (h.listed g hl).2.2.1
    · refine (h.rest g hl fun b hb hbi => hnone ⟨b, hb, ?_⟩).2
      rw [PageInfo.has, (h.held b hb g hbi).1, b.flags_has_huge, decide_eq_true_iff] at hhead
      exact ⟨hhead.1, hhead.2.symm⟩
  rw [PageInfo.has] at hhead
  rcases hflags with h₀ | h₁
  · rw [h₀] at hhead
    exact absurd hhead (by decide)
  · rw [h₁] at hhead
    exact absurd hhead (by decide)

/-- **`page_free` of another frame** leaves the page table alone, whatever that frame is. -/
theorem pageFree_keepsTable {m : Mm} {live : List Block} {l : List ℕ} (h : AllocInv m live l)
    {t pp : ℕ} (ht : pageBlock t ∈ live) (hpp : pp < m.npages) (hne : pp ≠ t) :
    Ends (fun _ => True) (fun m' => OffList m' t) (pageFree m pp) := by
  cases hhead : (m.pages pp).has allocHuge with
  | true =>
      obtain ⟨b, hb, hbig, rfl⟩ := h.block_of_huge hhead
      refine (pageFree_ends h hb).mono (fun _ _ => True.intro) ?_
      rintro m' ⟨-, l', hinv, -⟩
      refine hinv.offList ((List.mem_erase_of_ne fun hc => ?_).2 ht)
      rw [← hc] at hbig
      exact nomatch hbig
  | false =>
      cases hal : (m.pages pp).has alloc with
      | true =>
          refine (pageFree_given h.freeInv ⟨hpp, hal, hhead⟩).mono (fun _ _ => True.intro) ?_
          rintro m' ⟨-, hfree, -⟩
          exact ⟨pp :: l, hfree.freeList, fun hc =>
            (List.mem_cons.1 hc).elim (fun heq => hne heq.symm)
              (h.not_mem_of_has ht (pageBlock_has.2 rfl))⟩
      | false =>
          have hzero := (h.flags_of_not_alloc hal).1
          have hclear : clearPoison m pp = .ok m := by
            unfold clearPoison
            rw [if_neg (by rw [PageInfo.has, hzero]; decide)]
            rfl
          unfold pageFree
          refine ends_ite (fun _ => True.intro) fun _ => ends_ite (fun _ => True.intro) fun _ => ?_
          rw [if_neg (by rw [hhead]; exact Bool.false_ne_true), hclear]
          change Ends _ _ (if (m.pages pp).has alloc = true then _ else _)
          rw [if_neg (by rw [hal]; exact Bool.false_ne_true)]
          exact True.intro

/-- **`page_remove` of one page** does not free the page table. -/
theorem pageRemove_keepsTable {s : Vm} {d t : ℕ} {va : BitVec 32} {live : List Block} {l : List ℕ}
    (h : AllocInv s.mm live l) (ht : pageBlock t ∈ live)
    (hne : pgnum (s.mm.word (s.mm.leafPtr d (vpn va)).frame (s.mm.leafPtr d (vpn va)).idx) ≠ t) :
    Ends (fun _ => True) (fun s' => OffList s'.mm t) (pageRemove s (some d) va) := by
  refine pageRemove_rule (P := fun s₁ => OffList s₁.mm t) (fun _ => h.offList ht)
    (fun _ pp hlt hpp href => ?_)
    fun s₁ h₁ => ⟨fun _ => h₁, fun _ => h₁.congr rfl rfl rfl fun _ => rfl⟩
  have hne : pp ≠ t := by
    rw [← hpp]
    exact hne
  have hout : pp ∉ l := fun hc => href (h.listed pp hc).2.2.2
  have hinv : AllocInv (s.setRef pp (s.ref pp - 1)).mm live l := h.setRef hout _
  refine ends_ite (fun _ => ?_) fun _ => hinv.offList ht
  unfold releasePage
  rw [ends_bind]
  refine (lruRemoveElList_lruOnly _ pp).post ?_
  rintro ⟨found, m₁⟩ hlru
  have hlru : LruOnly (s.setRef pp (s.ref pp - 1)).mm m₁ := hlru
  dsimp only
  rw [ends_bind]
  refine (pageFree_keepsTable (hinv.lruOnly hlru) ht ?_ hne).post fun m₂ h₂ => h₂
  rw [hlru.npages]
  exact hlt

/-- **`page_insert` over a page table** leaves the table allocated. -/
theorem HugeSlot.insert_table {s : Vm} {d f : ℕ} {va perm : BitVec 32} {live : List Block}
    {l : List ℕ} (h : HugeSlot s d (pdx va) f live l) (hH : isHuge perm = true)
    (htab : s.mm.HasTable d (pdx va)) :
    Ends (fun _ => True) (fun r => OffList r.2.mm (pgnum (s.mm.word d (pdx va))))
      (pageInsert s (some d) (some f) va perm) := by
  obtain ⟨ht, hown⟩ := h.table htab
  have hwalk : pgdirWalk s (some d) va .huge = .ok (some ⟨d, pdx va⟩, s) := by
    have hpte : isPresent (s.pte ⟨d, pdx va⟩) = true := htab.1
    unfold pgdirWalk
    dsimp only
    rw [if_pos hpte]
    rfl
  have hptr : s.mm.leafPtr d (vpn va) = ⟨pgnum (s.mm.word d (pdx va)), vpn va % 1024⟩ := by
    rw [pdx_eq] at htab ⊢
    exact Mm.leafPtr_small htab.2
  unfold pageInsert
  refine ends_ite (fun _ => True.intro) fun _ => ?_
  rw [if_pos hH, hwalk]
  change Ends _ _ (if _ then _ else _)
  have hend : ∀ s₂ : Vm, OffList s₂.mm (pgnum (s.mm.word d (pdx va))) → ∀ (c : Prop) [Decidable c],
      OffList ((if c then s₂.setRef f (s₂.ref f + 1) else s₂).writePte ⟨d, pdx va⟩ va f
        (page2pa f ||| perm ||| pteP)).mm
        (pgnum (s.mm.word d (pdx va))) := by
    intro s₂ hs₂ c _
    split
    · exact hs₂.congr rfl (@Mm.link_modPage s₂.mm f (fun p => { p with ppRef := s₂.ref f + 1 })
        fun _ => rfl) rfl fun i => Vm.flags_setRef ..
    · exact hs₂.congr rfl rfl rfl fun _ => rfl
  refine ends_ite (fun _ => ?_) fun _ => hend s (h.inv.offList ht) _
  rw [ends_bind]
  refine (pageRemove_keepsTable h.inv ht ?_).post fun s₂ h₂ => hend s₂ h₂ _
  rw [hptr]
  exact hown _ (Nat.mod_lt _ (by decide))

/-! ### The accounts -/

/-- **A huge page over the slot of `va`**: the insertion and the removal of the block account for
every frame if and only if the slot does not lead to a page table, and `PTE_P` is not among the
permissions. -/
theorem hugeExact_iff (s : Vm) (d f : ℕ) (va perm : BitVec 32) (live : List Block) (l : List ℕ)
    (h : HugeSlot s d (pdx va) f live l) (hperm : perm.toNat < 4096) (hH : isHuge perm = true) :
    HugeExact s d f va perm ↔ ¬ s.mm.HasTable d (pdx va) ∧ isPresent perm = false := by
  constructor
  · rintro ⟨s₁, hrun, hex, -⟩
    refine ⟨fun htab => ?_, ?_⟩
    · exact ((h.insert_table hH htab).of_ok hrun).not_onFreeList (hex.table htab)
    · by_contra hP
      rw [Bool.not_eq_false] at hP
      unfold pageInsert at hrun
      dsimp only at hrun
      rw [if_pos hP] at hrun
      exact nomatch hrun
  · rintro ⟨hno, hP⟩
    have hins : ∃ s₁ live' l', pageInsert s (some d) (some f) va perm = .ok (true, s₁) ∧
        BigSlot s₁ d (pdx va) (hugeBlock f) live' l' ∧ s₁.ref f = 1 ∧
          HugeExchanged s s₁ d (pdx va) f := by
      cases hpres : isPresent (s.mm.word d (pdx va)) with
      | false => exact h.insert_empty hperm hH hP hpres
      | true =>
          refine h.insert_big hperm hH hP hpres ?_
          by_contra hc
          exact hno ⟨hpres, Bool.eq_false_of_not_eq_true hc⟩
    obtain ⟨s₁, live', l', hrun, hbig, hone, hex⟩ := hins
    obtain ⟨s₂, live₂, l₂, hrem, hun⟩ := hbig.remove
    have hzero : s₂.ref f = 0 := by
      refine hun.ref.trans ?_
      change s₁.ref f - 1 = 0
      rw [hone]
      rfl
    refine ⟨s₁, hrun, hex, s₂, hrem, hun.zero, fun j hj => ?_⟩
    exact hun.inv.freeInv.visits_iff.2 (hun.freed hzero (f + j)
      (hugeBlock_has.2 ⟨by omega, by omega⟩))

/-! ### A slot with a page table of two pages -/

/-- The marks of 2048 frames: a directory in frame 5, a page table in frame 6, two pages in the
frames 7 and 8, and a huge block at frame 1024. -/
def slotFlags (i : ℕ) : BitVec 32 :=
  if i = 1024 then alloc ||| allocHuge
  else if 1024 < i ∧ i < 2048 ∨ 5 ≤ i ∧ i ≤ 8 ∨ i = 160 then alloc else 0

/-- The words: the entry of the directory for `0x400000`, and the two entries of the page table. -/
def slotWord (pde : BitVec 32) (f i : ℕ) : BitVec 32 :=
  if f = 5 ∧ i = 1 then pde else if f = 6 ∧ i = 0 then 0x7007 else if f = 6 ∧
    i = 1 then 0x8007 else 0

/-- A machine with the entry `pde` for `0x400000`. -/
def slotVm (pde : BitVec 32) : Vm where
  mm := ⟨2048, frames_blocks, false,
    fun i => ⟨none, none, if 5 ≤ i ∧ i ≤ 8 then 1 else 0, slotFlags i⟩, none, 0,
    ⟨none, none, none, none, none, none⟩, 0, 0, bytesOf (slotWord pde)⟩
  envs _ := Space.ofDir 5
  kernPgdir _ := 0
  image _ := 0
  envFrame _ := 0
  written := []

/-- The blocks that are out. -/
def slotLive : List Block := [pageBlock 5, pageBlock 6, hugeBlock 1024]

theorem slotVm_word (pde : BitVec 32) (f i : ℕ) : (slotVm pde).mm.word f i = slotWord pde f i :=
  Mm.word_bytesOf (w := slotWord pde) rfl i

theorem slotFlags_block {i : ℕ} (h : (hugeBlock 1024).Has i) :
    slotFlags i = (hugeBlock 1024).flags i := by
  rw [hugeBlock_has] at h
  by_cases hi : i = 1024
  · subst hi
    decide
  · rw [slotFlags, if_neg hi, if_pos (Or.inl ⟨by omega, by omega⟩), Block.flags, if_neg fun hc =>
      hi hc.2]
    decide

theorem slotVm_inv (pde : BitVec 32) : AllocInv (slotVm pde).mm slotLive [] where
  chain := rfl
  listed _ hi := (List.not_mem_nil hi).elim
  aligned b hb hh := by
    simp only [slotLive, List.mem_cons, List.not_mem_nil, or_false] at hb
    rcases hb with rfl | rfl | rfl
    · exact absurd hh (by decide)
    · exact absurd hh (by decide)
    · exact ⟨1, rfl⟩
  low b hb := by
    simp only [slotLive, List.mem_cons, List.not_mem_nil, or_false] at hb
    rcases hb with rfl | rfl | rfl <;> decide
  bound b hb := by
    simp only [slotLive, List.mem_cons, List.not_mem_nil, or_false] at hb
    rcases hb with rfl | rfl | rfl
    all_goals
      change _ ≤ 2048
      decide
  held b hb i hi := by
    refine ⟨?_, rfl⟩
    change slotFlags i = b.flags i
    simp only [slotLive, List.mem_cons, List.not_mem_nil, or_false] at hb
    rcases hb with rfl | rfl | rfl
    · rw [pageBlock_has.1 hi]
      decide
    · rw [pageBlock_has.1 hi]
      decide
    · exact slotFlags_block hi
  apart := by
    simp only [slotLive, List.pairwise_cons, List.mem_cons, List.not_mem_nil, or_false,
      forall_eq_or_imp, forall_eq,
      pageBlock_has, hugeBlock_has, IsEmpty.forall_iff, implies_true, and_true, List.Pairwise.nil]
    omega
  rest i _ hout := by
    refine ⟨rfl, ?_⟩
    change slotFlags i = 0 ∨ slotFlags i = alloc
    have hblock : ¬ (hugeBlock 1024).Has i := hout _ (by simp [slotLive])
    rw [hugeBlock_has] at hblock
    rw [slotFlags, if_neg (by omega)]
    split
    · exact Or.inr rfl
    · exact Or.inl rfl
  hole := by
    refine ⟨rfl, fun b hb => ?_⟩
    simp only [slotLive, List.mem_cons, List.not_mem_nil, or_false] at hb
    rcases hb with rfl | rfl | rfl <;> decide

theorem slotVm_steady (pde : BitVec 32) : Steady (slotVm pde).mm [] :=
  ⟨rfl, by simp [drift, slotVm], fun _ => [], by intro q; cases q <;> rfl, by simp, by simp⟩

theorem slotVm_unmapped (pde : BitVec 32) {j : ℕ} (hj : (hugeBlock 1024).Has j) :
    (slotVm pde).ref j = 0 := by
  rw [hugeBlock_has] at hj
  exact if_neg (by omega)

theorem slotVm_empty : HugeSlot (slotVm 0) 5 (pdx 0x400000) 1024 slotLive [] := by
  have hword : (slotVm 0).mm.word 5 (pdx 0x400000) = 0 := slotVm_word 0 5 1
  refine ⟨slotVm_inv 0, slotVm_steady 0, by simp [slotLive], fun ht => ?_, fun hP =>
    ?_, by simp [slotLive],
    fun j hj => slotVm_unmapped 0 hj⟩
  · rw [Mm.HasTable, hword] at ht
    exact absurd ht.1 (by decide)
  · rw [hword] at hP
    exact absurd hP (by decide)

theorem hugeExact_iff_empty : HugeExact (slotVm 0) 5 1024 0x400000 (ptePS ||| pteW ||| pteU) := by
  refine (hugeExact_iff (slotVm 0) 5 1024 0x400000 (ptePS ||| pteW ||| pteU) slotLive
    [] slotVm_empty (by decide)
    (by decide)).2 ⟨fun ht => ?_, by decide⟩
  have hword : (slotVm 0).mm.word 5 (pdx 0x400000) = 0 := slotVm_word 0 5 1
  rw [Mm.HasTable, hword] at ht
  exact absurd ht.1 (by decide)

theorem slotVm_hasTable : (slotVm 0x6007).mm.HasTable 5 (pdx 0x400000) := by
  have hword : (slotVm 0x6007).mm.word 5 (pdx 0x400000) = 0x6007 := slotVm_word 0x6007 5 1
  rw [Mm.HasTable, hword]
  decide

theorem slotVm_table : HugeSlot (slotVm 0x6007) 5 (pdx 0x400000) 1024 slotLive [] := by
  have hword : (slotVm 0x6007).mm.word 5 (pdx 0x400000) = 0x6007 := slotVm_word 0x6007 5 1
  have hpg : pgnum (0x6007 : BitVec 32) = 6 := by decide
  refine ⟨slotVm_inv _, slotVm_steady _, by simp [slotLive], fun _ => ?_, fun _ hH =>
    ?_, by simp [slotLive],
    fun j hj => slotVm_unmapped _ hj⟩
  · rw [hword, hpg]
    refine ⟨by simp [slotLive], fun j _ => ?_⟩
    rw [slotVm_word, slotWord, if_neg (by simp)]
    split
    · decide
    · split
      · decide
      · decide
  · rw [hword] at hH
    exact absurd hH (by decide)

/-- **A 4 MB page over a page table with two pages**: the page table is not given back. -/
theorem huge_page_over_table :
    ¬ ∀ (s : Vm) (d f : ℕ) (va perm : BitVec 32) (live : List Block) (l : List ℕ),
      HugeSlot s d (pdx va) f live l →
      va < uTop → va.toNat % (1024 * 4096) = 0 → perm.toNat < 4096 → isHuge perm = true →
      isPresent perm = false →
        HugeExact s d f va perm := by
  intro hall
  obtain ⟨s₁, hrun, hex, -⟩ :=
    hall (slotVm 0x6007) 5 1024 0x400000 (ptePS ||| pteW ||| pteU) slotLive [] slotVm_table
    (by decide) (by decide) (by decide) (by decide) (by decide)
  have hkeep := (slotVm_table.insert_table (by decide : isHuge (ptePS ||| pteW ||| pteU) = true)
    slotVm_hasTable).of_ok hrun
  exact hkeep.not_onFreeList (hex.table slotVm_hasTable)

end Jos
