/-
**Releasing a block.**

`page_free` on a block that is out: every page of it goes back to the front of the list, its flags
are cleared, and the counter follows the list.  The only way the call can stop is its own check that
nobody refers to a page of the block any more.

Main definitions:

* `Jos.Pushed` — a page is put in front of the list and everything else is as before;
* `Jos.Returned` — the invariant of the loop over the pages of a huge block.

Main results:

* `Jos.AllocInv.give` — a block whose pages are on the list is no longer out;
* `Jos.pageFree_ends` — what `page_free` does to the partition;
* `Jos.pageFree_keeps` — the rule for what `page_free` leaves alone;
* `Jos.pageFree_keepsMarked` — the frames it may write to.
-/

import JosKernel.FrameAllocInv

set_option relaxedAutoImplicit false
set_option autoImplicit false

namespace Jos

open LinkedList Outcome

/-- A block of the partition is out only once. -/
theorem AllocInv.mem_erase {s : Mm} {live : List Block} {l : List ℕ} (h : AllocInv s live l)
    {b c : Block} (hb : b ∈ live) (hc : c ∈ live.erase b) :
    c ∈ live ∧ ∀ i, b.Has i → ¬ c.Has i := by
  refine ⟨List.mem_of_mem_erase hc, ?_⟩
  have hperm : (b :: live.erase b).Pairwise fun b c => ∀ i, b.Has i → ¬ c.Has i := by
    refine (List.Perm.pairwise_iff ?_ (List.perm_cons_erase hb)).1 h.apart
    intro x y hxy i hy hx
    exact hxy i hx hy
  exact (List.pairwise_cons.1 hperm).1 c hc

/-- **A block goes back to the list.** -/
theorem AllocInv.give {s s' : Mm} {live : List Block} {l l' : List ℕ} {b : Block}
    (h : AllocInv s live l) (hb : b ∈ live) (hnp : s'.npages = s.npages)
    (hchain : Chain s'.link s'.pageFreeList l') (hmem : ∀ i, i ∈ l' ↔ b.Has i ∨ i ∈ l)
    (hclear : ∀ i, b.Has i → (s'.pages i).pageFlags = 0 ∧ (s'.pages i).ppRef = 0)
    (hframe : ∀ i, ¬ b.Has i → s'.pages i = s.pages i) :
    AllocInv s' (live.erase b) l' := by
  have hout : ∀ c ∈ live.erase b, c ∈ live ∧ ∀ i, c.Has i → ¬ b.Has i := by
    intro c hc
    obtain ⟨hcl, hsep⟩ := h.mem_erase hb hc
    exact ⟨hcl, fun i hci hbi => hsep i hbi hci⟩
  have hlink : ∀ i, ¬ b.Has i → s'.link i = s.link i := by
    intro i hi
    rw [Mm.link, hframe i hi]
    rfl
  refine
    { chain := hchain, listed := ?_, aligned := fun c hc => h.aligned c (hout c hc).1,
      low := fun c hc => h.low c (hout c hc).1, bound := ?_, held := ?_,
      apart := h.apart.sublist List.erase_sublist, rest := ?_, hole := ?_ }
  · intro i hi
    rw [hnp]
    by_cases hbi : b.Has i
    · have hlow := h.low b hb
      have hbound := h.bound b hb
      refine ⟨?_, ?_, hclear i hbi⟩
      · exact hlow.trans hbi.1
      · exact hbi.2.trans_le hbound
    · rw [hframe i hbi]
      exact h.listed i (((hmem i).1 hi).resolve_left hbi)
  · intro c hc
    rw [hnp]
    exact h.bound c (hout c hc).1
  · intro c hc i hi
    have hbi := (hout c hc).2 i hi
    rw [hframe i hbi, hlink i hbi]
    exact h.held c (hout c hc).1 i hi
  · intro i hi hout'
    have hbi : ¬ b.Has i := fun hbi => hi ((hmem i).2 (Or.inl hbi))
    have hil : i ∉ l := fun hil => hi ((hmem i).2 (Or.inr hil))
    rw [hframe i hbi, hlink i hbi]
    refine h.rest i hil fun c hc hci => ?_
    have hcb : c ≠ b := by
      rintro rfl
      exact hbi hci
    exact hout' c ((List.mem_erase_of_ne hcb).2 hc) hci
  · have h160 := h.hole.2 b hb
    refine ⟨by rw [hframe 160 h160]; exact h.hole.1, fun c hc => h.hole.2 c (hout c hc).1⟩

/-! ### One page -/

/-- **The page `pp` is put in front of the list** `l`, cleared, and nothing else changes. -/
structure Pushed (s s' : Mm) (l : List ℕ) (pp : ℕ) : Prop where
  npages : s'.npages = s.npages
  premapped : s'.premappedFlag = s.premappedFlag
  chain : Chain s'.link s'.pageFreeList (pp :: l)
  clear : (s'.pages pp).pageFlags = 0 ∧ (s'.pages pp).ppRef = 0
  frame : ∀ i ≠ pp, s'.pages i = s.pages i
  count : s'.freePagesCount = s.freePagesCount + 1

/-- `page_flags ^= ALLOC; add_head_pfl(pp);`, after any change of the page's flags and bytes. -/
theorem Pushed.of_addHead {s : Mm} {l : List ℕ} {pp : ℕ} (h : Chain s.link s.pageFreeList l)
    (hpp : pp ∉ l) (f : PageInfo → PageInfo) (hf : ∀ p, (f p).ppLink = p.ppLink)
    (m : ℕ → ℕ → BitVec 8) :
    Pushed s (addHeadPfl ({ s with mem := m }.modPage pp f) pp) l pp where
  npages := rfl
  premapped := rfl
  chain := by
    refine addHeadPfl_chain ?_ hpp
    rw [Mm.link_modPage _ _ hf]
    exact h
  clear := by rw [addHeadPfl_self]; exact ⟨rfl, rfl⟩
  frame i hi := by rw [addHeadPfl_of_ne _ hi, Mm.modPage_of_ne _ _ hi]
  count := rfl

/-- Clearing the mark for poisoning changes the page's own flags and bytes only. -/
theorem clearPoison_eq {s : Mm} {pp : ℕ} (h : pp < s.npages) :
    ∃ (f : PageInfo → PageInfo) (m : ℕ → ℕ → BitVec 8),
      clearPoison s pp = Except.ok ({ s with mem := m }.modPage pp f) ∧
        (∀ p, (f p).ppLink = p.ppLink ∧ (f p).lruLink = p.lruLink) ∧ (∀ g ≠ pp, m g = s.mem g) ∧
        (∀ p, (f p).pageFlags &&& alloc = p.pageFlags &&& alloc) ∧
        ((s.pages pp).has poisonAfterFree = true → m pp = fun _ => 1) ∧
        ((s.pages pp).has poisonAfterFree = false → m pp = s.mem pp) := by
  unfold clearPoison poisonPage
  by_cases hp : (s.pages pp).has poisonAfterFree = true
  · refine ⟨PageInfo.flip poisonAfterFree, Function.update s.mem pp fun _ => 1, ?_,
      fun _ => ⟨rfl, rfl⟩, fun g hg => Function.update_of_ne hg .., fun p => ?_,
      fun _ => Function.update_self .., fun hc => absurd (hp.symm.trans hc) (by simp)⟩
    · rw [if_pos hp, memsetPage_eq h]
      rfl
    · change (p.pageFlags ^^^ poisonAfterFree) &&& alloc = p.pageFlags &&& alloc
      ext i hi
      simp only [BitVec.getElem_and, BitVec.getElem_xor]
      have hbit : (poisonAfterFree[i] && alloc[i]) = false := by
        revert i
        decide
      generalize poisonAfterFree[i] = x at *
      generalize alloc[i] = y at *
      generalize p.pageFlags[i] = z
      revert x y z
      decide
  · refine ⟨id, s.mem, ?_, fun _ => ⟨rfl, rfl⟩, fun _ _ => rfl, fun _ => rfl, fun hc =>
      absurd hc hp, fun _ => rfl⟩
    rw [if_neg hp]
    simp [Mm.modPage, pure, Except.pure]

/-- One round of the loop over the pages of a huge block. -/
theorem freeHugeRound_ends {s : Mm} {l : List ℕ} {pp : ℕ} (h : Chain s.link s.pageFreeList l)
    (hpp : pp ∉ l) (hnp : pp < s.npages) {E : Crash → Prop} :
    Ends E (fun s' => Pushed s s' l pp) (freeHugeRound s pp) := by
  obtain ⟨f, m, hclear, hf, -⟩ := clearPoison_eq hnp
  unfold freeHugeRound
  rw [hclear]
  simp only [ends_bind, ends_ok, ends_pure, Mm.modPage_modPage]
  exact Pushed.of_addHead h hpp (fun p => PageInfo.flip alloc (f p)) (fun p => (hf p).1) m

theorem drift_push {s s' : Mm} {l l' : List ℕ} {pp : ℕ} (h : Pushed s s' l' pp)
    (hlen : l'.length = l.length) : drift s' (pp :: l') = drift s l := by
  rw [drift, drift, h.count, List.length_cons, hlen, BitVec.ofNat_add]
  bv_omega

/-! ### A huge block -/

/-- The list with the first `k` pages of the block at `hp` back in front. -/
def backList (l : List ℕ) (hp k : ℕ) : List ℕ := (List.range' hp k).reverse ++ l

theorem mem_backList {l : List ℕ} {hp k i : ℕ} :
    i ∈ backList l hp k ↔ (hp ≤ i ∧ i < hp + k) ∨ i ∈ l := by
  simp [backList]

theorem backList_succ (l : List ℕ) (hp k : ℕ) :
    backList l hp (k + 1) = (hp + k) :: backList l hp k := by
  rw [backList, backList, List.range'_concat]
  simp

/-- **The invariant of the loop of a huge release**, which starts in `s`: the first `k` pages of the
block at `hp` are back. -/
structure Returned (s s' : Mm) (l : List ℕ) (hp k : ℕ) : Prop where
  npages : s'.npages = s.npages
  premapped : s'.premappedFlag = s.premappedFlag
  chain : Chain s'.link s'.pageFreeList (backList l hp k)
  clear : ∀ i, hp ≤ i → i < hp + k → (s'.pages i).pageFlags = 0 ∧ (s'.pages i).ppRef = 0
  frame : ∀ i, ¬ (hp ≤ i ∧ i < hp + k) → s'.pages i = s.pages i
  drift : drift s' (backList l hp k) = Jos.drift s l

theorem Returned.succ {s s' s'' : Mm} {l : List ℕ} {hp k : ℕ} (h : Returned s s' l hp k)
    (hpush : Pushed s' s'' (backList l hp k) (hp + k)) : Returned s s'' l hp (k + 1) where
  npages := hpush.npages.trans h.npages
  premapped := hpush.premapped.trans h.premapped
  chain := by rw [backList_succ]; exact hpush.chain
  clear i hi hi' := by
    by_cases heq : i = hp + k
    · rw [heq]
      exact hpush.clear
    · rw [hpush.frame i heq]
      exact h.clear i hi (by omega)
  frame i hi := by
    rw [hpush.frame i (by omega)]
    exact h.frame i (by omega)
  drift := by
    rw [backList_succ, drift_push hpush rfl]
    exact h.drift

/-- The loop of a huge release runs to its end. -/
theorem freeHuge_ends {s : Mm} {l : List ℕ} {hp : ℕ} (h : Chain s.link s.pageFreeList l)
    (hl : ∀ i, hp ≤ i → i < hp + kb → i ∉ l) (hnp : hp + kb ≤ s.npages) {E : Crash → Prop} :
    Ends E (fun s' => Returned s s' l hp kb) ((List.range' hp kb).foldlM freeHugeRound s) := by
  refine ends_foldlM_range' (P := fun k s' => Returned s s' l hp k) ?_ ?_
  · exact
      { npages := rfl, premapped := rfl, chain := h, clear := fun i hi hi' => by omega,
        frame := fun _ _ => rfl, drift := rfl }
  · intro k hk s' hr
    have hfresh : hp + k ∉ backList l hp k := by
      rw [mem_backList]
      rintro (hin | hin)
      · omega
      · exact hl (hp + k) (by omega) (by omega) hin
    refine (freeHugeRound_ends hr.chain hfresh ?_).post fun s'' hpush => hr.succ hpush
    rw [hr.npages]
    omega

/-! ### The release as a whole -/

/-- A page of the block is still referenced. -/
def StillReferenced (s : Mm) (b : Block) : Prop := ∃ i, b.Has i ∧ (s.pages i).ppRef ≠ 0

/-- What a call of `page_free` leaves behind. -/
def FreePost (s : Mm) (live : List Block) (l : List ℕ) (b : Block) (s' : Mm) : Prop :=
  s'.premappedFlag = s.premappedFlag ∧
    ∃ l', AllocInv s' (live.erase b) l' ∧ drift s' l' = drift s l

/-- The flags of a block as the tests of `page_free` see them. -/
theorem Block.flags_has_huge (b : Block) (i : ℕ) :
    (b.flags i &&& allocHuge != 0) = decide (b.huge = true ∧ i = b.start) := by
  unfold Block.flags
  by_cases hh : b.huge = true ∧ i = b.start
  · simp only [hh, and_self, if_true, decide_true]
    split <;> decide
  · simp only [hh, if_false, decide_false]
    split <;> decide

/-- After the last round the block is back. -/
theorem Returned.give {s s₁ s' : Mm} {live : List Block} {l : List ℕ} {b : Block} {n : ℕ}
    (hr : Returned s₁ s' l b.start n) (h : AllocInv s live l) (hb : b ∈ live) (hn : b.size = n)
    (hnp : s₁.npages = s.npages) (hframe : ∀ i, ¬ b.Has i → s₁.pages i = s.pages i) :
    AllocInv s' (live.erase b) (backList l b.start n) := by
  subst hn
  refine h.give hb (hr.npages.trans hnp) hr.chain (fun i => mem_backList) ?_ ?_
  · intro i hi
    exact hr.clear i hi.1 hi.2
  · intro i hi
    rw [hr.frame i hi]
    exact hframe i hi

/-- The loop over a huge block brings all of it back, and leaves the other pages alone. -/
theorem pageFree_huge_ends {s : Mm} {live : List Block} {l : List ℕ} {b : Block}
    (h : AllocInv s live l) (hb : b ∈ live) (hh : b.huge = true) :
    Ends (fun _ => StillReferenced s b)
      (fun s' => s'.premappedFlag = s.premappedFlag ∧
        AllocInv s' (live.erase b) (backList l b.start kb) ∧
        drift s' (backList l b.start kb) = drift s l ∧ ∀ i, ¬ b.Has i → s'.pages i = s.pages i) (do
      let idx := pgnum (page2pa b.start)
      (List.range' idx kb).forM (checkHugeRound s)
      (List.range' idx kb).foldlM freeHugeRound (s.modPage idx (PageInfo.flip allocHuge))) := by
  have hsize : b.size = kb := by simp [Block.size, hh]
  have hbound := h.bound b hb
  have hidx : pgnum (page2pa b.start) = b.start := by
    have hle := s.npages_le
    have hkb : kb = 1024 := rfl
    rw [pgnum_page2pa, Nat.mod_eq_of_lt (by omega)]
  have hhas : ∀ i, b.Has i ↔ b.start ≤ i ∧ i < b.start + kb := fun i => Block.has_huge hh
  rw [hsize] at hbound
  dsimp only
  rw [hidx, ends_bind]
  -- every check of the first loop passes, or a page is still referenced
  have hcheck : ∀ i ∈ List.range' b.start kb,
      Ends (fun _ => StillReferenced s b) (fun _ => True) (checkHugeRound s i) := by
    intro i hi
    have hbi : b.Has i := by
      rw [hhas]
      simpa using hi
    obtain ⟨hfl, hlk⟩ := h.held b hb i hbi
    unfold checkHugeRound
    rw [if_neg (by rw [PageInfo.has, hfl, b.flags_has_alloc i]; simp)]
    refine ends_ite (fun href => ⟨i, hbi, href⟩) (fun _ => ?_)
    have hlink : (s.pages i).ppLink = none := hlk
    rw [if_neg (not_not_intro hlink)]
    exact True.intro
  refine (ends_forM hcheck).post fun _ _ => ?_
  set s₁ := s.modPage b.start (PageInfo.flip allocHuge) with hs₁
  have hchain : Chain s₁.link s₁.pageFreeList l := by
    rw [hs₁, Mm.link_modPage s b.start (f := PageInfo.flip allocHuge) fun _ => rfl]
    exact h.chain
  refine (freeHuge_ends hchain (fun i hi hi' => ?_) hbound).post ?_
  · exact h.not_mem_of_has hb ((hhas i).2 ⟨hi, hi'⟩)
  · intro s' hr
    have hframe : ∀ i, ¬ b.Has i → s₁.pages i = s.pages i := by
      intro i hi
      refine Mm.modPage_of_ne _ _ ?_
      rintro rfl
      exact hi b.has_start
    refine ⟨hr.premapped, hr.give h hb hsize rfl hframe, hr.drift, fun i hi => ?_⟩
    rw [hr.frame i fun hc => hi ((hhas i).2 hc)]
    exact hframe i hi

/-- **`page_free`** of a block that is out: it goes back to the list, or one of its pages is still
referenced. -/
theorem pageFree_ends {s : Mm} {live : List Block} {l : List ℕ} {b : Block}
    (h : AllocInv s live l) (hb : b ∈ live) :
    Ends (fun _ => StillReferenced s b) (FreePost s live l b) (pageFree s b.start) := by
  obtain ⟨hfl, hlk⟩ := h.held b hb b.start b.has_start
  unfold pageFree
  refine ends_ite (fun href => ⟨b.start, b.has_start, href⟩) (fun _ => ?_)
  have hlink : (s.pages b.start).ppLink = none := hlk
  rw [if_neg (not_not_intro hlink)]
  refine ends_ite (fun hhuge => ?_) (fun hhuge => ?_)
  · rw [PageInfo.has, hfl, b.flags_has_huge, decide_eq_true_iff] at hhuge
    exact (pageFree_huge_ends h hb hhuge.1).post fun s' h' => ⟨h'.1, _, h'.2.1, h'.2.2.1⟩
  · have hh : b.huge = false := by
      rw [PageInfo.has, hfl, b.flags_has_huge, decide_eq_true_iff] at hhuge
      simpa using hhuge
    have hhas : ∀ i, b.Has i ↔ i = b.start := fun i => Block.has_single hh
    have hnp : b.start < s.npages := by
      have hbound := h.bound b hb
      simp only [Block.size, hh, Bool.false_eq_true, if_false] at hbound
      omega
    obtain ⟨f, m, hclear, hf, -, hfalloc, -⟩ := clearPoison_eq hnp
    rw [hclear]
    have hal : (({ s with mem := m }.modPage b.start f).pages b.start).has alloc = true := by
      rw [Mm.modPage_self, PageInfo.has, hfalloc]
      change ((s.pages b.start).pageFlags &&& alloc != 0) = true
      rw [hfl]
      exact b.flags_has_alloc b.start
    simp only [ends_bind, ends_ok]
    rw [if_pos hal, ends_pure, Mm.modPage_modPage]
    have hpush := Pushed.of_addHead h.chain (h.not_mem_of_has hb b.has_start)
      (fun p => PageInfo.flip alloc (f p)) (fun p => (hf p).1) m
    refine ⟨hpush.premapped, b.start :: l, ?_, drift_push hpush rfl⟩
    refine h.give hb hpush.npages hpush.chain ?_ ?_ ?_
    · intro i
      rw [List.mem_cons, hhas]
    · intro i hi
      rw [(hhas i).1 hi]
      exact hpush.clear
    · intro i hi
      exact hpush.frame i (by rwa [hhas] at hi)

/-! ### What `page_free` leaves alone -/

/-- **A rule for `page_free`**: what is kept along the three steps it is made of is kept by the
call. -/
theorem pageFree_keeps {R : Mm → Mm → Prop} (htrans : ∀ m m' m'', R m m' → R m' m'' → R m m'')
    (hflip : ∀ m pp, R m (m.modPage pp (PageInfo.flip alloc)) ∧
      R m (m.modPage pp (PageInfo.flip allocHuge)))
    (hadd : ∀ m pp, R m (addHeadPfl m pp)) (hclear : ∀ m pp, Ends (fun _ => True) (R m)
      (clearPoison m pp)) (m : Mm) (pp : ℕ) :
    Ends (fun _ => True) (R m) (pageFree m pp) := by
  have hpage : ∀ i m', R m m' → R m (addHeadPfl (m'.modPage i (PageInfo.flip alloc)) i) := by
    intro i m' h
    exact htrans _ _ _ h (htrans _ _ _ (hflip m' i).1 (hadd _ i))
  unfold pageFree
  refine ends_ite (fun _ => True.intro) fun _ => ends_ite (fun _ => True.intro) fun _ =>
    ends_ite (fun _ => ?_) fun _ => ?_
  · dsimp only
    rw [ends_bind]
    refine (ends_forM fun i _ => ?_).post fun _ _ => ?_
    · unfold checkHugeRound
      exact ends_ite (fun _ => True.intro) fun _ => ends_ite (fun _ => True.intro) fun _ =>
        ends_ite (fun _ => True.intro) fun _ => True.intro
    · refine ends_foldlM_range' (P := fun _ m' => R m m') (hflip m _).2 fun k _ m' h => ?_
      unfold freeHugeRound
      rw [ends_bind]
      exact (hclear m' _).post fun m₁ h₁ => hpage _ m₁ (htrans _ _ _ h h₁)
  · rw [ends_bind]
    exact (hclear m pp).post fun m₁ h₁ => ends_ite (fun _ => hpage pp m₁ h₁) fun _ => True.intro

/-! ### The bytes of the frames -/

/-- A frame is written to only when it loses the mark for poisoning. -/
structure KeepsMarked (m m' : Mm) : Prop where
  npages : m'.npages = m.npages
  mem : ∀ f, (m'.mem f = m.mem f ∧ ((m'.pages f).has poisonAfterFree = true →
    (m.pages f).has poisonAfterFree = true)) ∨
    ((m.pages f).has poisonAfterFree = true ∧ (m'.pages f).has poisonAfterFree = false)

namespace KeepsMarked

variable {m m' m'' : Mm}

theorem trans (h : KeepsMarked m m') (h' : KeepsMarked m' m'') : KeepsMarked m m'' := by
  refine ⟨h'.npages.trans h.npages, fun f => ?_⟩
  rcases h.mem f with ⟨hmem, hmark⟩ | ⟨hset, hclear⟩
  · rcases h'.mem f with ⟨hmem', hmark'⟩ | ⟨hset', hclear'⟩
    · exact Or.inl ⟨hmem'.trans hmem, fun hf => hmark (hmark' hf)⟩
    · exact Or.inr ⟨hmark hset', hclear'⟩
  · rcases h'.mem f with ⟨-, hmark'⟩ | ⟨-, hclear'⟩
    · refine Or.inr ⟨hset, ?_⟩
      by_contra hc
      rw [hmark' (by simpa using hc)] at hclear
      exact nomatch hclear
    · exact Or.inr ⟨hset, hclear'⟩

/-- A change of one `page_info` that does not set the mark. -/
theorem modPage (m : Mm) (pp : ℕ) {g : PageInfo → PageInfo}
    (hg : ∀ p, p.has poisonAfterFree = false → (g p).has poisonAfterFree = false) :
    KeepsMarked m (m.modPage pp g) := by
  refine ⟨rfl, fun f => Or.inl ⟨rfl, fun hf => ?_⟩⟩
  by_cases hpp : f = pp
  · subst hpp
    by_contra hc
    rw [Mm.modPage_self, hg _ (by simpa using hc)] at hf
    exact nomatch hf
  · rwa [Mm.modPage_of_ne _ _ hpp] at hf

/-- A frame that keeps its flags keeps its bytes. -/
theorem mem_of_flags (h : KeepsMarked m m') {f : ℕ}
    (hf : (m'.pages f).pageFlags = (m.pages f).pageFlags) : m'.mem f = m.mem f := by
  rcases h.mem f with ⟨hmem, -⟩ | ⟨hset, hclear⟩
  · exact hmem
  · rw [PageInfo.has, hf] at hclear
    rw [PageInfo.has, hclear] at hset
    cases hset

end KeepsMarked

theorem addHeadPfl_keepsMarked (m : Mm) (pp : ℕ) : KeepsMarked m (addHeadPfl m pp) := by
  have hmod := @KeepsMarked.modPage m pp (fun p =>
    { p with ppLink := m.pageFreeList, ppRef := 0, pageFlags := 0 })
    fun _ _ => by rw [PageInfo.has, bne_eq_false_iff_eq]; exact BitVec.zero_and
  exact ⟨hmod.npages, hmod.mem⟩

/-- Flipping one flag does not set another. -/
theorem has_flip {p : PageInfo} {a b : BitVec 32} (h : a &&& b = 0) (hp : p.has b = false) :
    (PageInfo.flip a p).has b = false := by
  rw [PageInfo.has, bne_eq_false_iff_eq] at hp ⊢
  have hdist : (p.pageFlags ^^^ a) &&& b = (p.pageFlags &&& b) ^^^ (a &&& b) := by
    ext k hk
    simp only [BitVec.getElem_and, BitVec.getElem_xor]
    exact Bool.and_xor_distrib_right ..
  change (p.pageFlags ^^^ a) &&& b = 0
  rw [hdist, hp, h]
  rfl

/-- Flipping the mark takes it away. -/
theorem flip_poison {p : PageInfo} (h : p.has poisonAfterFree = true) :
    (p.pageFlags ^^^ poisonAfterFree) &&& poisonAfterFree = 0 := by
  have hbit : poisonAfterFree = BitVec.twoPow 32 5 := by decide
  rw [PageInfo.has, hbit, BitVec.and_twoPow] at h
  rw [hbit, BitVec.and_twoPow]
  split at h
  · rename_i hset
    rw [BitVec.getLsbD_xor, hset]
    rfl
  · exact absurd h (by decide)

theorem clearPoison_keepsMarked (m : Mm) (pp : ℕ) :
    Ends (fun _ => True) (KeepsMarked m) (clearPoison m pp) := by
  unfold clearPoison poisonPage memsetPage
  refine ends_ite (fun hmark => ?_) fun _ => ⟨rfl, fun _ => Or.inl ⟨rfl, id⟩⟩
  simp only [ends_bind, ends_pure]
  unfold kaddr
  refine ends_ite (fun _ => True.intro) fun _ => ⟨rfl, fun f => ?_⟩
  by_cases hf : f = pp
  · subst hf
    refine Or.inr ⟨hmark, ?_⟩
    rw [Mm.modPage_self, PageInfo.has, bne_eq_false_iff_eq]
    exact flip_poison hmark
  · rw [Mm.modPage_of_ne _ _ hf]
    exact Or.inl ⟨Function.update_of_ne hf _ _, id⟩

/-- **`page_free` writes only to frames that it takes the mark from.** -/
theorem pageFree_keepsMarked (m : Mm) (pp : ℕ) :
    Ends (fun _ => True) (KeepsMarked m) (pageFree m pp) :=
  pageFree_keeps (R := KeepsMarked) (fun _ _ _ => KeepsMarked.trans)
    (fun m pp => ⟨.modPage m pp fun _ => has_flip (by decide), .modPage m pp fun _ =>
      has_flip (by decide)⟩)
    addHeadPfl_keepsMarked clearPoison_keepsMarked m pp

end Jos
