/-
**Dropping a reference.**

`page_decref`, and the lines of `page_remove` that do the same, take one reference from the first
frame of a block, of one page or of 1024, and give the block back when that was the last one.

Main definitions:

* `Jos.BlockFreed` — a block is on the free list, and the other frames are as before;
* `Jos.RefTaken`, `Jos.RefDropped` — **a reference to a block has been dropped**, and the entry that
  held it is gone.

Main results:

* `Jos.pageFree_block` — `page_free` of a block without references;
* `Jos.decref_takes`, `Jos.releaseIf_takes` — the two ways to drop a reference.
-/

import JosKernel.HugeInsert

set_option relaxedAutoImplicit false
set_option autoImplicit false

namespace Jos

open LinkedList Outcome

/-! ### A block is given back -/

/-- **A block is on the free list**, and the other frames are as before. -/
structure BlockFreed (m m' : Mm) (live : List Block) (l : List ℕ) (b : Block) : Prop where
  npages : m'.npages = m.npages
  inv : AllocInv m' (live.erase b) (backList l b.start b.size)
  steady : Steady m l → Steady m' (backList l b.start b.size)
  ref : ∀ i, ¬ b.Has i → (m'.pages i).ppRef = (m.pages i).ppRef
  mem : ∀ c ∈ live.erase b, ∀ i, c.Has i → m'.mem i = m.mem i

section Free

variable {m : Mm} {live : List Block} {l : List ℕ} {b : Block}

theorem backList_one (l : List ℕ) (p : ℕ) : backList l p 1 = p :: l := rfl

/-- The frames of the other blocks keep their bytes. -/
theorem AllocInv.mem_kept {m' : Mm} {live' : List Block} {l' : List ℕ} (h : AllocInv m live l)
    (h' : AllocInv m' live' l') (hsub : ∀ c ∈ live', c ∈ live) (hk : KeepsMarked m m') :
    ∀ c ∈ live', ∀ i, c.Has i → m'.mem i = m.mem i := by
  intro c hc i hi
  refine hk.mem_of_flags ?_
  rw [(h'.held c hc i hi).1, (h.held c (hsub c hc) i hi).1]

/-- **`page_free`** of a block that has no references. -/
theorem pageFree_block (h : AllocInv m live l) (hb : b ∈ live)
    (href : ∀ i, b.Has i → (m.pages i).ppRef = 0) :
    ∃ m', pageFree m b.start = .ok m' ∧ BlockFreed m m' live l b := by
  obtain ⟨hfl, hlk⟩ := h.held b hb b.start b.has_start
  have hlink : (m.pages b.start).ppLink = none := hlk
  cases hh : b.huge with
  | true =>
      have hsize : b.size = kb := by simp [Block.size, hh]
      have hhead : (m.pages b.start).has allocHuge = true := by
        rw [PageInfo.has, hfl, b.flags_has_huge, hh]
        simp
      have hfree : Ends (fun _ => False)
          (fun m' => m'.premappedFlag = m.premappedFlag ∧
            AllocInv m' (live.erase b) (backList l b.start kb) ∧
            drift m' (backList l b.start kb) = drift m l ∧ ∀ i, ¬ b.Has i →
              m'.pages i = m.pages i) (pageFree m b.start) := by
        unfold pageFree
        rw [if_neg (not_not_intro (href b.start b.has_start)), if_neg (not_not_intro hlink),
          if_pos hhead]
        refine (pageFree_huge_ends h hb hh).mono ?_ fun _ h => h
        rintro _ ⟨i, hi, hne⟩
        exact hne (href i hi)
      obtain ⟨m', hrun, ⟨⟨hpre, hinv, hdrift, hframe⟩, hkl⟩, hkm⟩ :=
        ((hfree.and (pageFree_keepsLru m b.start)).and (pageFree_keepsMarked m b.start)).exists_ok
          fun _ hc => hc.1.1
      refine ⟨m', hrun, hkl.npages, ?_, ?_, fun i hi => ?_, h.mem_kept hinv
        (fun c hc => List.mem_of_mem_erase hc) hkm⟩
      · rw [hsize]
        exact hinv
      · rw [hsize]
        exact fun hs =>
          ⟨hpre.trans hs.1, hdrift.trans hs.2.1, hs.2.2.congr hkl.npages hkl.lruLists hkl.lruLink⟩
      · rw [hframe i hi]
  | false =>
      have hsize : b.size = 1 := by simp [Block.size, hh]
      have hhas : ∀ i, b.Has i ↔ i = b.start := fun i => Block.has_single hh
      have hbound := h.bound b hb
      have hheld : m.Held b.start := by
        refine ⟨by omega, ?_, ?_⟩
        · rw [PageInfo.has, hfl]
          exact b.flags_has_alloc _
        · rw [PageInfo.has, hfl, b.flags_has_huge, hh]
          rfl
      have hfree : Ends (fun _ => False)
          (fun m' => (Given m m' b.start ∧ FreeInv m' (b.start :: l) ∧
            (Steady m l → Steady m' (b.start :: l))) ∧ FreePost m live l b m')
          (pageFree m b.start) :=
        ((pageFree_given h.freeInv hheld).and (pageFree_ends h hb)).mono
          (fun _ hc => hc.1 (href _ b.has_start)) fun _ h => h
      obtain ⟨m', hrun, ⟨⟨hg, hlist, hst⟩, -, l', hinv, -⟩, hkm⟩ :=
        (hfree.and (pageFree_keepsMarked m b.start)).exists_ok fun _ hc => hc.1
      obtain rfl : l' = b.start :: l := hinv.chain.unique hlist.chain
      refine ⟨m', hrun, hg.npages, ?_, ?_, fun i hi => hg.ref i fun hc => hi ((hhas i).2 hc),
        h.mem_kept hinv (fun c hc => List.mem_of_mem_erase hc) hkm⟩
      · rw [hsize, backList_one]
        exact hinv
      · rw [hsize, backList_one]
        exact hst

end Free

/-! ### A reference is dropped -/

/-- **A reference to the block `b` has been dropped.** The block is free if that was the last
reference, and nothing else has happened to the blocks that are left. -/
structure RefTaken (s s' : Vm) (live live' : List Block) (l l' : List ℕ) (b : Block) : Prop where
  npages : s'.mm.npages = s.mm.npages
  space : SameSpaces s s'
  inv : AllocInv s'.mm live' l'
  steady : Steady s'.mm l'
  ref : s'.ref b.start = s.ref b.start - 1
  refs : ∀ g ≠ b.start, s'.ref g = s.ref g
  blocks : (s.ref b.start ≠ 1 ∧ live' = live ∧ l' = l) ∨
    (s.ref b.start = 1 ∧ live' = live.erase b ∧ l' = backList l b.start b.size)
  mem : ∀ c ∈ live', ∀ f, c.Has f → s'.mm.mem f = s.mm.mem f

/-- **A reference to the block `b` has been dropped, and the word at `p` is 0.** -/
structure RefDropped (s s' : Vm) (live live' : List Block) (l l' : List ℕ) (b : Block)
    (p : PtePtr) : Prop where
  npages : s'.mm.npages = s.mm.npages
  space : SameSpaces s s'
  inv : AllocInv s'.mm live' l'
  steady : Steady s'.mm l'
  ref : s'.ref b.start = s.ref b.start - 1
  refs : ∀ g ≠ b.start, s'.ref g = s.ref g
  blocks : (s.ref b.start ≠ 1 ∧ live' = live ∧ l' = l) ∨
    (s.ref b.start = 1 ∧ live' = live.erase b ∧ l' = backList l b.start b.size)
  words : ∀ c ∈ live', ∀ f, c.Has f → ∀ k, s'.mm.word f k = if f = p.frame ∧ k = p.idx then 0
    else s.mm.word f k

namespace RefDropped

variable {s s' : Vm} {live live' : List Block} {l l' : List ℕ} {b c : Block} {p : PtePtr}

theorem sub (h : RefDropped s s' live live' l l' b p) (hc : c ∈ live') : c ∈ live := by
  rcases h.blocks with ⟨-, heq, -⟩ | ⟨-, heq, -⟩
  · rwa [heq] at hc
  · rw [heq] at hc
    exact List.mem_of_mem_erase hc

/-- The other blocks stay. -/
theorem stays (h : RefDropped s s' live live' l l' b p) (hc : c ∈ live) (hne : c ≠ b) :
    c ∈ live' := by
  rcases h.blocks with ⟨-, heq, -⟩ | ⟨-, heq, -⟩
  · rwa [heq]
  · rw [heq]
    exact (List.mem_erase_of_ne hne).2 hc

theorem stays_page (h : RefDropped s s' live live' l l' b p) {f : ℕ} (hf : pageBlock f ∈ live)
    (hne : b.start ≠ f) :
    pageBlock f ∈ live' := by
  refine h.stays hf ?_
  rintro rfl
  exact hne rfl

/-- A word that is still present is not the one that was cleared. -/
theorem word_of_present (h : RefDropped s s' live live' l l' b p) {f k : ℕ}
    (hf : pageBlock f ∈ live') (hP : isPresent (s'.mm.word f k) = true) :
    s'.mm.word f k = s.mm.word f k := by
  have hw := h.words _ hf f (pageBlock_has.2 rfl) k
  split at hw
  · rw [hw] at hP
    exact absurd hP (by decide)
  · exact hw

end RefDropped

section Drop

variable {s : Vm} {live : List Block} {l : List ℕ} {b : Block}

/-- A huge block is not the block of a single page. -/
theorem AllocInv.huge_ne_page {m : Mm} (h : AllocInv m live l) (hb : b ∈ live)
    (hbig : b.huge = true) {f : ℕ} (hf : pageBlock f ∈ live) :
    b.start ≠ f := by
  rintro rfl
  have hsame := h.has_inj hb hf b.has_start (pageBlock_has.2 rfl)
  rw [hsame] at hbig
  exact nomatch hbig

/-- The counter is lowered, and the block stays. -/
theorem refTaken_more (h : AllocInv s.mm live l) (hst : Steady s.mm l) (hb : b ∈ live)
    (href : s.ref b.start ≠ 1) :
    RefTaken s (s.setRef b.start (s.ref b.start - 1)) live live l l b where
  npages := rfl
  space := ⟨rfl, rfl, rfl, rfl⟩
  inv := h.setRef (h.not_mem_of_has hb b.has_start) _
  steady := hst.setRef _
  ref := (Vm.ppRef_setRef ..).trans (if_pos rfl)
  refs _ hg := (Vm.ppRef_setRef ..).trans (if_neg hg)
  blocks := Or.inl ⟨href, rfl, rfl⟩
  mem _ _ _ _ := rfl

/-- The counter is lowered to 0, and the block is given back. -/
theorem refTaken_last {m₁ m' : Mm} (hst : Steady s.mm l) (href : s.ref b.start = 1)
    (hrest : ∀ i, b.Has i → i ≠ b.start → s.ref i = 0)
    (hlru : LruOnly (s.setRef b.start (s.ref b.start - 1)).mm m₁)
    (hst₁ : Steady (s.setRef b.start (s.ref b.start - 1)).mm l → Steady m₁ l)
    (hfreed : BlockFreed m₁ m' live l b) :
    RefTaken s { s with mm := m' } live (live.erase b) l (backList l b.start b.size) b := by
  have href₁ : ∀ g, (m₁.pages g).ppRef = if g = b.start then s.ref b.start - 1 else s.ref g :=
    fun g => (hlru.ref g).trans (Vm.ppRef_setRef ..)
  have hback : ∀ i, b.Has i → i ∈ backList l b.start b.size :=
    fun i hi => mem_backList.2 (Or.inl hi)
  refine ⟨hfreed.npages.trans hlru.npages, ⟨rfl, rfl, rfl, rfl⟩, hfreed.inv,
    hfreed.steady (hst₁ (hst.setRef _)), ?_, fun g hg => ?_,
    Or.inr ⟨href, rfl, rfl⟩, fun c hc f hf => ?_⟩
  · have hzero : (m'.pages b.start).ppRef = 0 := (hfreed.inv.listed _ (hback _ b.has_start)).2.2.2
    refine hzero.trans ?_
    rw [href]
    rfl
  · by_cases hbg : b.Has g
    · have hzero : (m'.pages g).ppRef = 0 := (hfreed.inv.listed _ (hback _ hbg)).2.2.2
      exact hzero.trans (hrest g hbg hg).symm
    · exact (hfreed.ref g hbg).trans ((href₁ g).trans (if_neg hg))
  · exact (hfreed.mem c hc f hf).trans (congrFun hlru.mem f)

/-- The frames of a block whose last reference goes. -/
theorem lastRefs (href : s.ref b.start = 1) (hrest : ∀ i, b.Has i → i ≠ b.start → s.ref i = 0)
    {m₁ : Mm} (hlru : LruOnly (s.setRef b.start (s.ref b.start - 1)).mm m₁) :
    ∀ i, b.Has i → (m₁.pages i).ppRef = 0 := by
  intro i hi
  have href₁ : (m₁.pages i).ppRef = if i = b.start then s.ref b.start - 1 else s.ref i :=
    (hlru.ref i).trans (Vm.ppRef_setRef ..)
  rw [href₁]
  split
  · rw [href]
    rfl
  · rename_i hne
    exact hrest i hi hne

/-- **`page_decref`**. -/
theorem decref_takes (h : AllocInv s.mm live l) (hst : Steady s.mm l) (hb : b ∈ live)
    (hrest : ∀ i, b.Has i → i ≠ b.start → s.ref i = 0) :
    ∃ s' live' l', decref s b.start = .ok s' ∧ RefTaken s s' live live' l l' b := by
  by_cases href : s.ref b.start = 1
  · have hinv₁ : AllocInv (s.setRef b.start (s.ref b.start - 1)).mm live l :=
      h.setRef (h.not_mem_of_has hb b.has_start) _
    obtain ⟨m', hrun, hfreed⟩ := pageFree_block hinv₁ hb (lastRefs href hrest (.refl _))
    refine ⟨{ s with mm := m' }, _, _, ?_, refTaken_last hst href hrest (.refl _) id hfreed⟩
    have hzero : ((s.setRef b.start (s.ref b.start - 1)).mm.pages b.start).ppRef = 0 :=
      lastRefs href hrest (.refl _) b.start b.has_start
    have hdec : pageDecref s.mm b.start =
        pageFree (s.setRef b.start (s.ref b.start - 1)).mm b.start := if_pos hzero
    rw [decref, hdec, hrun]
    rfl
  · exact ⟨_, live, l, decref_more href, refTaken_more h hst hb href⟩

/-- **The lines of `page_remove` that drop a reference.** -/
theorem releaseIf_takes (h : AllocInv s.mm live l) (hst : Steady s.mm l) (hb : b ∈ live)
    (hrest : ∀ i, b.Has i → i ≠ b.start → s.ref i = 0) :
    ∃ s' live' l', (if (s.setRef b.start (s.ref b.start - 1)).ref b.start = 0 then releasePage
      (s.setRef b.start (s.ref b.start - 1)) b.start
      else pure (s.setRef b.start (s.ref b.start - 1))) = .ok s' ∧
        RefTaken s s' live live' l l' b := by
  have hself : (s.setRef b.start (s.ref b.start - 1)).ref b.start = s.ref b.start - 1 :=
    (Vm.ppRef_setRef ..).trans (if_pos rfl)
  rw [hself]
  by_cases href : s.ref b.start = 1
  · have hzero : s.ref b.start - 1 = 0 := by
      rw [href]
      rfl
    have hinv₁ : AllocInv (s.setRef b.start (s.ref b.start - 1)).mm live l :=
      h.setRef (h.not_mem_of_has hb b.has_start) _
    obtain ⟨⟨found, m₁⟩, hlruRun, hlru, hst₁⟩ :=
      (lruRemoveElList_ends (s.setRef b.start (s.ref b.start - 1)).mm l b.start).exists_ok
        fun _ hns => hns (hst.setRef _)
    obtain ⟨m', hrun, hfreed⟩ := pageFree_block (hinv₁.lruOnly hlru) hb (lastRefs href hrest hlru)
    refine ⟨{ s with mm := m' }, _, _, ?_, refTaken_last hst href hrest hlru hst₁ hfreed⟩
    rw [if_pos hzero, releasePage, hlruRun]
    change (do
      let mm ← pageFree m₁ b.start
      pure ({ s.setRef b.start (s.ref b.start - 1) with mm := mm } : Vm)) = _
    rw [hrun]
    rfl
  · have hne : s.ref b.start - 1 ≠ 0 := by
      intro hz
      exact href (by bv_omega)
    exact ⟨_, live, l, if_neg hne, refTaken_more h hst hb href⟩

variable {s' s₁ : Vm} {live' : List Block} {l' : List ℕ}

/-- The word is written after the reference has been dropped. -/
theorem RefTaken.thenZero (h : RefTaken s s' live live' l l' b) (p : PtePtr) :
    RefDropped s (s'.setPte p 0) live live' l l' b p where
  npages := h.npages
  space := h.space.trans ⟨rfl, rfl, rfl, rfl⟩
  inv := h.inv.congr rfl rfl rfl (fun _ => rfl) fun _ _ => rfl
  steady := h.steady.setWord 0 p.frame p.idx
  ref := h.ref
  refs := h.refs
  blocks := h.blocks
  words c hc f hf k := by rw [Vm.word_setPte, Mm.word_of_mem (h.mem c hc f hf)]

/-- The word has been written before. -/
theorem RefTaken.afterZero {p : PtePtr} (h : RefTaken (s.setPte p 0) s' live live' l l' b) :
    RefDropped s s' live live' l l' b p where
  npages := h.npages
  space := @SameSpaces.trans s (s.setPte p 0) s' ⟨rfl, rfl, rfl, rfl⟩ h.space
  inv := h.inv
  steady := h.steady
  ref := h.ref
  refs := h.refs
  blocks := h.blocks
  words c hc f hf k := by rw [Mm.word_of_mem (h.mem c hc f hf), Vm.word_setPte]

/-- `page_remove` after its reference has been dropped. -/
theorem pageRemove_released {d pp : ℕ} {va : BitVec 32}
    (hlookup : pageLookup s (some d) va = .ok (some pp)) (href : s.ref pp ≠ 0)
    (hrun : (if (s.setRef pp (s.ref pp - 1)).ref pp = 0 then releasePage
      (s.setRef pp (s.ref pp - 1)) pp
      else pure (s.setRef pp (s.ref pp - 1))) = .ok s₁) :
    pageRemove s (some d) va = (do
      let pte ← pgdirFind s₁ (some d) va
      match pte with
      | none => pure s₁
      | some pte => pure (s₁.setPte pte 0)) := by
  unfold pageRemove
  rw [if_neg (fun hc => nomatch hc), hlookup]
  change (if s.ref pp = 0 then throw (Crash.panic "page_remove: PAGE REF COUNT ALREADY 0")
    else do
      let s₂ ← if (s.setRef pp (s.ref pp - 1)).ref pp = 0 then
          releasePage (s.setRef pp (s.ref pp - 1)) pp
        else pure (s.setRef pp (s.ref pp - 1))
      let pte ← pgdirFind s₂ (some d) va
      match pte with
      | none => pure s₂
      | some pte => pure (s₂.setPte pte 0)) = _
  rw [if_neg href]
  by_cases hz : (s.setRef pp (s.ref pp - 1)).ref pp = 0
  · rw [if_pos hz] at hrun ⊢
    rw [hrun]
    rfl
  · rw [if_neg hz] at hrun ⊢
    obtain rfl := Except.ok.inj hrun
    rfl

end Drop

end Jos
