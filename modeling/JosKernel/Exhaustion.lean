/-
**No frame is left.**

A fault that finds no frame, or no frame for the page table, is not survived:
`alloc_page_after_fault` marks the environment as sleeping and goes on to `page_insert` with `NULL`,
which stops the kernel; and when `page_insert` returns `-E_NO_MEM` the environment is destroyed, but
nobody gives the frame back that was to be mapped.

Main definitions:

* `Jos.OutOfMemory` — one of the two allocations fails;
* `Jos.Survived` — **the environment sleeps or is gone, and no frame is lost**;
* `Jos.Stranded` — a frame in use to which nothing leads.

Main results:

* `Jos.envFreeVm_stranded` — `env_free` does not give such a frame back;
* `Jos.exhaustion_not_survived` — **no such fault is survived**.
-/

import JosKernel.HugeFault

set_option relaxedAutoImplicit false
set_option autoImplicit false

namespace Jos

open LinkedList Outcome

-- the addresses of the kernel are not computed with
attribute [local irreducible] paddr

/-! ### What is expected -/

/-- **One of the two allocations of the fault fails**: the one of the page, or, where the directory
has no entry for it, the one of the page table. -/
def OutOfMemory (s : Vm) (d : ℕ) (a : Vma) (va : BitVec 32) : Prop :=
  (∃ m, pageAlloc s.mm (demandFlags a) = .ok (none, m)) ∨
    isHuge a.perm = false ∧ isPresent (s.mm.word d (pdx va)) = false ∧
      ∃ f m m', pageAlloc s.mm (demandFlags a) = .ok (some f, m) ∧
      pageAlloc m allocZero = .ok (none, m')

/-- **The fault is survived**: the environment sleeps and its pages are as before, or it is gone,
and of the frames that the fault took none is left without a reference, in use or on a list of pages
in use. -/
structure Survived (s : Vm) (d : ℕ) (r : FaultEnd) (s' : Vm) : Prop where
  ended : r = .asleep ∧ (∀ q, q / 1024 < pdx uTop → s'.mm.leaf d q = s.mm.leaf d q) ∨ r = .killed
  owned : ∀ f, (s.mm.pages f).has alloc = false → (s'.mm.pages f).has alloc = true → s'.ref f ≠ 0
  unlisted : ∀ L f q, (s.mm.pages f).has alloc = false → LruInv s'.mm L → f ∈ L q → s'.ref f ≠ 0

/-- **A fault in an area that is not one of the program**, in a machine that is in order: frames
that are not in use have no references, and the pages of the environment and the frame of its slot
are in use. -/
structure DemandSite (s : Vm) (e d v : ℕ) (va : BitVec 32) (live : List Block) (l : List ℕ) :
    Prop extends
    FaultSite s e d v va live l where
  anon : (s.vma e v).type ≠ .binary
  idle : ∀ f, (s.mm.pages f).has alloc = false → s.ref f = 0
  used : ∀ q f b, q / 1024 < pdx uTop → s.mm.translate d q = some (f, b) →
    (s.mm.pages f).has alloc = true
  slot : s.envFrame e < s.mm.npages ∧ (s.mm.pages (s.envFrame e)).has alloc = true

/-! ### A frame to which nothing leads -/

/-- **The frame `f` is in use and has no reference, and nothing leads to it** from the directory in
the frame `d`: no entry of it, and no first frame of a block around it. -/
structure Stranded (m : Mm) (d f : ℕ) : Prop where
  used : (m.pages f).has alloc = true
  ref : (m.pages f).ppRef = 0
  head : ∀ g < f, f < g + kb → (m.pages g).has allocHuge = false
  unmarked : (m.pages d).has poisonAfterFree = false
  entry : ∀ i < pdx uTop, isPresent (m.word d i) = true → pgnum (m.word d i) ≠ f

namespace Stranded

variable {m m' : Mm} {s : Vm} {d f pp : ℕ}

/-- A change of another page that sets neither of the two marks. -/
theorem modPage (h : Stranded m d f) (hpp : pp ≠ f) {g : PageInfo → PageInfo}
    (hhuge : (m.pages pp).has allocHuge = false → (g (m.pages pp)).has allocHuge = false)
    (hpois : (m.pages pp).has poisonAfterFree = false →
      (g (m.pages pp)).has poisonAfterFree = false) :
    Stranded (m.modPage pp g) d f := by
  have hpage : (m.modPage pp g).pages f = m.pages f := Mm.modPage_of_ne _ _ (Ne.symm hpp)
  refine ⟨?_, ?_, fun i hi hi' => ?_, ?_, h.entry⟩
  · rw [hpage]
    exact h.used
  · rw [hpage]
    exact h.ref
  · by_cases hip : i = pp
    · subst hip
      rw [Mm.modPage_self]
      exact hhuge (h.head i hi hi')
    · rw [Mm.modPage_of_ne _ _ hip]
      exact h.head i hi hi'
  · by_cases hdp : d = pp
    · subst hdp
      rw [Mm.modPage_self]
      exact hpois h.unmarked
    · rw [Mm.modPage_of_ne _ _ hdp]
      exact h.unmarked

theorem lruOnly (h : Stranded m d f) (hlru : LruOnly m m') : Stranded m' d f := by
  have hhas : ∀ i flag, (m'.pages i).has flag = (m.pages i).has flag := by
    intro i flag
    rw [PageInfo.has, hlru.flags]
    rfl
  refine ⟨(hhas f alloc).trans h.used, (hlru.ref f).trans h.ref, fun g hg hg' =>
    (hhas g allocHuge).trans (h.head g hg hg'),
    (hhas d poisonAfterFree).trans h.unmarked, fun i hi => ?_⟩
  rw [Mm.word_of_mem (congrFun hlru.mem d)]
  exact h.entry i hi

theorem setRef (h : Stranded s.mm d f) (hpp : pp ≠ f) (n : BitVec 16) :
    Stranded (s.setRef pp n).mm d f :=
  h.modPage (g := fun p => { p with ppRef := n }) hpp id id

/-- An entry is cleared, wherever it is. -/
theorem setPte (h : Stranded s.mm d f) (p : PtePtr) : Stranded (s.setPte p 0).mm d f := by
  refine ⟨h.used, h.ref, h.head, h.unmarked, fun i hi hP => ?_⟩
  rw [Vm.word_setPte] at hP ⊢
  split at hP
  · exact absurd hP (by decide)
  · rename_i hne
    rw [if_neg hne]
    exact h.entry i hi hP

/-! ### Giving frames back -/

theorem clearPoison (h : Stranded m d f) (hpp : pp ≠ f) :
    Ends (fun _ => True) (Stranded · d f) (clearPoison m pp) := by
  unfold Jos.clearPoison poisonPage memsetPage
  refine ends_ite (fun hmark => ?_) fun _ => h
  have hne : d ≠ pp := by
    rintro rfl
    rw [h.unmarked] at hmark
    exact nomatch hmark
  have hmem : Stranded ({ m with mem := Function.update m.mem pp fun _ => 1 } : Mm) d f := by
    refine ⟨h.used, h.ref, h.head, h.unmarked, fun i hi => ?_⟩
    rw [Mm.word_of_mem (m := m) (Function.update_of_ne hne ..)]
    exact h.entry i hi
  simp only [ends_bind, ends_pure]
  refine Ends.of_forall (fun _ => hmem.modPage (g := PageInfo.flip poisonAfterFree) hpp
    (has_flip (by decide)) fun hc => ?_) _
  rw [show (m.pages pp).has poisonAfterFree = false from hc] at hmark
  exact nomatch hmark

theorem addHeadPfl (h : Stranded m d f) (hpp : pp ≠ f) : Stranded (addHeadPfl m pp) d f := by
  have hzero : ∀ (p : PageInfo) flag, PageInfo.has
      { p with ppLink := m.pageFreeList, ppRef := 0, pageFlags := 0 } flag = false := by
    intro p flag
    rw [PageInfo.has, bne_eq_false_iff_eq]
    exact BitVec.zero_and
  have hmod := h.modPage
    (g := fun p => { p with ppLink := m.pageFreeList, ppRef := 0, pageFlags := 0 }) hpp
    (fun _ => hzero _ _) fun _ => hzero _ _
  exact ⟨hmod.used, hmod.ref, hmod.head, hmod.unmarked, hmod.entry⟩

/-- A page goes back on the list. -/
theorem giveBack (h : Stranded m d f) (hpp : pp ≠ f) :
    Stranded (Jos.addHeadPfl (m.modPage pp (PageInfo.flip alloc)) pp) d f :=
  (h.modPage hpp (has_flip (by decide)) (has_flip (by decide))).addHeadPfl hpp

/-- **`page_free` of another frame.** -/
theorem pageFree (h : Stranded m d f) (hlt : pp < m.npages) (hpp : pp ≠ f) :
    Ends (fun _ => True) (Stranded · d f) (pageFree m pp) := by
  unfold Jos.pageFree
  refine ends_ite (fun _ => True.intro) fun _ => ends_ite (fun _ => True.intro) fun _ =>
    ends_ite (fun hhead => ?_) fun _ => ?_
  · have hidx : pgnum (page2pa pp) = pp := by
      rw [pgnum_page2pa, Nat.mod_eq_of_lt (Nat.lt_of_lt_of_le hlt m.npages_le)]
    dsimp only
    rw [hidx, ends_bind]
    refine (Ends.of_forall (fun _ => True.intro) _).post fun _ _ => ?_
    refine ends_foldlM_range' (P := fun _ m' => Stranded m' d f) ?_ fun k hk m' h' => ?_
    · refine h.modPage hpp (fun hc => ?_) (has_flip (by decide))
      rw [hc] at hhead
      exact nomatch hhead
    · -- the block of `pp` does not reach `f`
      have hne : pp + k ≠ f := by
        rintro rfl
        rw [h.head pp (by omega) (by omega)] at hhead
        exact nomatch hhead
      unfold freeHugeRound
      rw [ends_bind]
      exact (h'.clearPoison hne).post fun m₁ h₁ => h₁.giveBack hne
  · rw [ends_bind]
    exact (h.clearPoison hpp).post fun m₁ h₁ => ends_ite (fun _ => h₁.giveBack hpp) fun _ =>
      True.intro

/-- **`page_decref` of another frame.** -/
theorem decref (h : Stranded s.mm d f) (hlt : pp < s.mm.npages) (hpp : pp ≠ f) :
    Ends (fun _ => True) (fun s' => Stranded s'.mm d f) (decref s pp) := by
  have hdec : Stranded (s.setRef pp (s.ref pp - 1)).mm d f := h.setRef hpp _
  unfold Jos.decref pageDecref
  rw [ends_bind]
  exact ends_ite (fun _ => (hdec.pageFree hlt hpp).post fun _ h' => h') fun _ => hdec

/-- `page_decref` through an address. -/
theorem decrefPa (h : Stranded s.mm d f) {pa : BitVec 32} (hpa : pgnum pa ≠ f) :
    Ends (fun _ => True) (fun s' => Stranded s'.mm d f)
      (pa2page s.mm.npages pa >>= Jos.decref s) := by
  rw [ends_bind]
  unfold pa2page
  exact ends_ite (fun _ => True.intro) fun hlt => h.decref (Nat.not_le.1 hlt) hpa

theorem decrefKva (h : Stranded s.mm d f) (hpow : pp < 2 ^ 20) (hpp : pp ≠ f) :
    Ends (fun _ => True) (fun s' => Stranded s'.mm d f) (decrefKva s pp) := by
  unfold Jos.decrefKva
  generalize hkva : page2pa pp + kernBase = kva
  rw [ends_bind]
  refine (paddr_page2pa hpow hkva.symm).mono (fun _ _ => True.intro) fun pa hpa => h.decrefPa ?_
  rw [hpa, pgnum_page2pa, Nat.mod_eq_of_lt hpow]
  exact hpp

/-- **`page_remove`** does not find the frame: it has no reference. -/
theorem pageRemove (h : Stranded s.mm d f) (dir : Option ℕ) (va : BitVec 32) :
    Ends (fun _ => True) (fun s' => Stranded s'.mm d f) (pageRemove s dir va) := by
  cases dir with
  | none =>
      unfold Jos.pageRemove
      exact ends_ite (fun _ => True.intro) fun hc => absurd rfl hc
  | some d' =>
      refine pageRemove_rule (P := fun s₁ => Stranded s₁.mm d f) (fun _ => h)
        (fun _ pp hlt _ href => ?_) fun s₁ h₁ => ⟨fun _ => h₁, fun _ => h₁.setPte _⟩
      have hpp : pp ≠ f := by
        rintro rfl
        exact href h.ref
      have hdec : Stranded (s.setRef pp (s.ref pp - 1)).mm d f := h.setRef hpp _
      refine ends_ite (fun _ => ?_) fun _ => hdec
      unfold releasePage
      rw [ends_bind]
      refine (lruRemoveElList_lruOnly _ pp).post ?_
      rintro ⟨found, m₁⟩ hlru
      have hlru : LruOnly (s.setRef pp (s.ref pp - 1)).mm m₁ := hlru
      dsimp only
      rw [ends_bind]
      exact ((hdec.lruOnly hlru).pageFree (hlru.npages ▸ hlt) hpp).post fun m₂ h₂ => h₂

/-! ### `env_free` -/

theorem freePde (h : Stranded s.mm d f) (e : ℕ) {i : ℕ} (hi : i < pdx uTop) :
    Ends (fun _ => True) (fun s' => Stranded s'.mm d f) (freePde e d s i) := by
  unfold Jos.freePde
  refine ends_ite (fun hP => ?_) fun _ => h
  have hpa : pgnum (pteAddr (s.pte ⟨d, i⟩)) ≠ f := by
    rw [pgnum_pteAddr]
    exact h.entry i hi hP
  dsimp only
  rw [ends_bind]
  refine Ends.of_forall (fun _ => ?_) _
  rw [ends_bind, List.range_eq_range']
  refine (ends_foldlM_range' (P := fun _ s' => Stranded s'.mm d f) h fun k _ s' h' => ?_).post
    fun s₁ h₁ => ?_
  · unfold freePte
    exact ends_ite (fun _ => h'.pageRemove _ _) fun _ => h'
  · exact (h₁.setPte ⟨d, i⟩).decrefPa hpa

end Stranded

/-- The slots stay where they are. -/
theorem pageRemove_envFrame (s : Vm) (dir : Option ℕ) (va : BitVec 32) :
    Ends (fun _ => True) (fun s' => s'.envFrame = s.envFrame) (pageRemove s dir va) := by
  cases dir with
  | none =>
      unfold pageRemove
      exact ends_ite (fun _ => True.intro) fun hc => absurd rfl hc
  | some d =>
      refine pageRemove_rule (P := fun s₁ => s₁.envFrame = s.envFrame) (fun _ => rfl)
        (fun _ pp _ _ _ => ?_) fun s₁ h₁ => ⟨fun _ => h₁, fun _ => h₁⟩
      refine ends_ite (fun _ => ?_) fun _ => rfl
      unfold releasePage
      simp only [ends_bind]
      exact Ends.of_forall (fun r => Ends.of_forall (fun m => rfl) _) _

theorem decrefPa_envFrame (s : Vm) (x : Except Crash ℕ) :
    Ends (fun _ => True) (fun s' => s'.envFrame = s.envFrame) (x >>= decref s) := by
  rw [ends_bind]
  refine Ends.of_forall (fun pp => ?_) _
  unfold decref
  rw [ends_bind]
  exact Ends.of_forall (fun _ => rfl) _

theorem freePde_envFrame (e d : ℕ) (s : Vm) (i : ℕ) :
    Ends (fun _ => True) (fun s' => s'.envFrame = s.envFrame) (freePde e d s i) := by
  unfold freePde
  refine ends_ite (fun _ => ?_) fun _ => rfl
  dsimp only
  rw [ends_bind]
  refine Ends.of_forall (fun _ => ?_) _
  rw [ends_bind, List.range_eq_range']
  refine (ends_foldlM_range' (P := fun _ s' => s'.envFrame = s.envFrame) rfl fun k _ s' h' =>
    ?_).post fun s₁ h₁ => ?_
  · unfold freePte
    exact ends_ite (fun _ => (pageRemove_envFrame s' _ _).post fun _ h => h.trans h') fun _ => h'
  · exact (decrefPa_envFrame (s₁.setPte ⟨d, i⟩ 0) _).post fun _ h => h.trans h₁

/-- **`env_free` does not give a stranded frame back.** -/
theorem envFreeVm_stranded {s : Vm} {e d f : ℕ} (h : Stranded s.mm d f) (hdir : s.pgdir e = some d)
    (hd : d < 2 ^ 20) (hdf : d ≠ f) (hslot : s.envFrame e < 2 ^ 20) (hef : s.envFrame e ≠ f) :
    Ends (fun _ => True) (fun s' => Stranded s'.mm d f) (envFreeVm s e) := by
  rw [envFreeVm_eq hdir, ends_bind, List.range_eq_range']
  refine (ends_foldlM_range' (P := fun _ s' => Stranded s'.mm d f ∧ s'.envFrame = s.envFrame)
    ⟨h, rfl⟩ fun k hk s' h' => ?_).post
    fun s₁ h₁ => ?_
  · rw [Nat.zero_add]
    refine ((h'.1.freePde e hk).and (freePde_envFrame e d s' k)).mono (fun _ _ => True.intro)
      fun s₂ h₂ => ?_
    exact ⟨h₂.1, h₂.2.trans h'.2⟩
  · have hspace : Stranded (s₁.modSpace e freedSpace).mm d f := h₁.1
    have hframe : Ends (fun _ => True) (fun s' => s'.envFrame = s.envFrame)
        (decrefKva (s₁.modSpace e freedSpace) d) := by
      unfold decrefKva
      rw [ends_bind]
      refine Ends.of_forall (fun pa => ?_) _
      exact (decrefPa_envFrame (s₁.modSpace e freedSpace) _).post fun _ h => h.trans h₁.2
    unfold freeDir
    rw [ends_bind]
    refine ((hspace.decrefKva hd hdf).and hframe).mono (fun _ _ => True.intro) fun s₂ h₂ => ?_
    have hs₂ : s₂.envFrame e = s.envFrame e := congrFun h₂.2 e
    rw [hs₂]
    exact h₂.1.decrefKva hslot hef

/-! ### The fault -/

namespace DemandSite

variable {s s₁ : Vm} {e d v f : ℕ} {va : BitVec 32} {live : List Block} {l l₁ : List ℕ}

/-- The frame was not in use before. -/
theorem fresh (h : DemandSite s e d v va live l) (hg : GotFrame s s₁ (s.vma e v) f live l l₁) :
    (s.mm.pages f).has alloc = false := by
  by_cases hhps : (s.vma e v).hps = true
  · obtain ⟨-, -, hfree⟩ := findHugePage_spec (hg.huge hhps).1
    exact hfree f (Nat.le_refl f) (Nat.lt_add_of_pos_right (by decide))
  · obtain ⟨m, hm⟩ := hg.taken
    have hsmall : demandFlags (s.vma e v) &&& allocHuge = 0 :=
      not_not.1 fun hc => hhps ((demandFlags_huge _).1 hc)
    rcases (pageAlloc_taken h.inv.freeInv hsmall (demandFlags_poison _)).of_ok hm
      with ⟨heq, -⟩ | ⟨pp, hpp, hr, -⟩
    · exact nomatch (Prod.mk.inj heq).1
    · obtain rfl : f = pp := Option.some.inj hr
      rw [PageInfo.has, (h.inv.listed f hpp).2.2.1]
      rfl

/-- **The frame that was taken is stranded**, as long as it is not mapped. -/
theorem stranded (h : DemandSite s e d v va live l) (hg : GotFrame s s₁ (s.vma e v) f live l l₁) :
    Stranded s₁.mm d f := by
  have hfresh := h.fresh hg
  have hmem := List.mem_cons_self (a := blockOf (demandFlags (s.vma e v)) f) (l := live)
  obtain ⟨hinv, -, -, hword⟩ := hg.tables h.toFaultSite
  refine ⟨?_, (hg.ref f).trans (h.idle f hfresh), fun g hlt hin => ?_, hinv.unmarked d (Or.inl rfl),
    fun i hi hP heq => ?_⟩
  · rw [PageInfo.has, (hg.inv.held _ hmem f (Block.has_start _)).1]
    exact Block.flags_has_alloc ..
  · by_contra hc
    obtain ⟨b, hb, hbig, rfl⟩ := hg.inv.block_of_huge (Bool.eq_true_of_not_eq_false hc)
    have hbf : b.Has f := (Block.has_huge hbig).2 ⟨hlt.le, hin⟩
    have heq : b = blockOf (demandFlags (s.vma e v)) f :=
      hg.inv.has_inj hb hmem hbf (Block.has_start (blockOf _ f))
    rw [heq] at hlt
    exact (Nat.lt_irrefl f hlt).elim
  · rw [hword] at hP heq
    have hused : (s.mm.pages f).has alloc = true := by
      have hi' : i < 1024 := hi.trans (by decide)
      by_cases hH : isHuge (s.mm.word d i) = true
      · have hq : (i * 1024 + f % 1024) / 1024 = i := by omega
        refine h.used (i * 1024 + f % 1024) f true (by rw [hq]; exact hi) ?_
        rw [Mm.translate, Mm.leaf, hq, if_pos hP, if_pos hH]
        dsimp only
        rw [heq]
        exact congrArg some (Prod.ext (by dsimp only; omega) rfl)
      · exact h.toDirSite.used (Or.inr ⟨i, hi', ⟨hP, Bool.eq_false_of_not_eq_true hH⟩, heq⟩)
    rw [hfresh] at hused
    cases hused

/-- **Without memory no page is inserted**, and the frame, when there is one, is stranded. -/
theorem demand_outOfMemory (h : DemandSite s e d v va live l)
    (hno : OutOfMemory s d (s.vma e v) va) :
    Ends (fun _ => True) (fun r => r.1 = false ∧ ∃ f l₁, GotFrame s r.2 (s.vma e v) f live l l₁)
      (demandPage s e v va) := by
  refine h.demand (fun _ _ => True.intro) (fun _ => True.intro) fun f s₁ l₁ hg => ?_
  obtain ⟨m, hm⟩ := hg.taken
  rcases hno with ⟨m', hm'⟩ | ⟨hH, habs, f', m', m'', hm', hnone⟩
  · exact nomatch (Prod.mk.inj (Except.ok.inj (hm.symm.trans hm'))).1
  · obtain ⟨hf, rfl⟩ := Prod.mk.inj (Except.ok.inj (hm.symm.trans hm'))
    by_cases hP : isPresent (s.vma e v).perm = true
    · unfold pageInsert
      dsimp only
      rw [if_pos hP]
      exact True.intro
    · obtain ⟨-, -, -, hword⟩ := hg.tables h.toFaultSite
      rw [pageInsert_noTable (Bool.eq_false_of_not_eq_true hP) hH
        ((congrArg isPresent (hword _)).trans habs)
        ((hg.list m hm).trans (((pageAlloc_none m allocZero).of_ok hnone rfl).2 (by decide)))]
      exact ⟨rfl, f, l₁, hg⟩

/-- The frames of the slot and of the directory are not the one that was taken. -/
theorem kill_stranded (h : DemandSite s e d v va live l)
    (hg : GotFrame s s₁ (s.vma e v) f live l l₁) :
    Ends (fun _ => True) (fun s' => Stranded s'.mm d f) (envFreeVm s₁ e) := by
  have hfresh := h.fresh hg
  have hne : ∀ g, (s.mm.pages g).has alloc = true → g ≠ f := by
    rintro g hused rfl
    rw [hfresh] at hused
    exact nomatch hused
  have hdused : (s.mm.pages d).has alloc = true := h.toDirSite.used (Or.inl rfl)
  have hbound : d + (pageBlock d).size ≤ s.mm.npages := h.inv.bound _ (h.tables d (Or.inl rfl))
  have hdlt : d < 2 ^ 20 := Nat.lt_of_lt_of_le (by change d + 1 ≤ _ at hbound; omega) s.mm.npages_le
  refine envFreeVm_stranded (h.stranded hg) ((hg.same.pgdir e).trans h.dir) hdlt
    (hne d hdused) ?_ ?_
  · rw [hg.slots]
    exact Nat.lt_of_lt_of_le h.slot.1 s.mm.npages_le
  · rw [hg.slots]
    exact hne _ h.slot.2

end DemandSite

/-- **No fault that runs out of memory is survived.** -/
theorem exhaustion_not_survived (s : Vm) (e d v : ℕ) (va : BitVec 32) (live : List Block)
    (l : List ℕ) (h : DemandSite s e d v va live l) (hno : OutOfMemory s d (s.vma e v) va) :
    ¬ ∃ r s', allocPageAfterFault s e va = .ok (r, s') ∧ Survived s d r s' := by
  rintro ⟨r, s', hrun, hsurv⟩
  rw [allocPageAfterFault_eq h.area, if_neg h.anon, allocAnon_eq] at hrun
  obtain ⟨⟨ok, s₁⟩, hdemand, hrest⟩ := bind_eq_ok.1 hrun
  obtain ⟨hok, f, l₁, hg⟩ := (h.demand_outOfMemory hno).of_ok hdemand
  obtain rfl : ok = false := hok
  obtain ⟨s₂, hfree, hend⟩ := bind_eq_ok.1 hrest
  obtain rfl : s₂ = s' := congrArg Prod.snd (Except.ok.inj hend)
  have hlost : Stranded s₂.mm d f := (h.kill_stranded hg).of_ok hfree
  exact hsurv.owned f (h.fresh hg) hlost.used hlost.ref

/-! ### An empty list and a list of one frame -/

/-- A machine without page tables, in which `n` frames are free. -/
def emptyVm (n : ℕ) : Vm := { smallVm (pairArea .anon) 0 0 0 0 8 n with envFrame := fun _ => 160 }

theorem emptyVm_leaf {n : ℕ} (q : ℕ) : (emptyVm n).mm.leaf 5 q = none := by
  refine Mm.leaf_eq_none.2 ?_
  by_contra hP
  exact absurd (smallVm_dir (a := pairArea .anon) (Bool.eq_true_of_not_eq_false hP)).2 (by decide)

theorem emptyVm_site {n : ℕ} (hn : n ≤ 152) :
    DemandSite (emptyVm n) 0 5 0 0x400000 smallLive (List.range' 8 n) := by
  have hfault : FaultSite (smallVm (pairArea .anon) 0 0 0 0 8 n) 0 5 0 0x400000 smallLive
      (List.range' 8 n) :=
    smallVm_fault (by decide) (Or.inl (by omega)) (fun hP =>
      absurd hP (by decide)) (by decide) (by decide)
  refine ⟨⟨⟨hfault.dir, hfault.inv, hfault.tables, hfault.user, hfault.apart, hfault.null⟩,
    hfault.low, hfault.area⟩, nofun,
    fun f hf => ?_, fun q f b _ ht => ?_, (by decide : 160 < 2048), ?_⟩
  · have hflags : ((emptyVm n).mm.pages f).pageFlags = smallFlags f := rfl
    have hne : f ≠ 7 := by
      rintro rfl
      rw [PageInfo.has, hflags] at hf
      exact absurd hf (by decide)
    exact if_neg hne
  · rw [Mm.translate, emptyVm_leaf] at ht
    cases ht
  · change (smallFlags 160 &&& alloc != 0) = true
    decide

/-- No frame for the page, and none for the page table. -/
theorem exhaustion_not_survived_anon :
    (¬ ∃ r s', allocPageAfterFault (emptyVm 0) 0 0x400000 = .ok (r, s') ∧
      Survived (emptyVm 0) 5 r s') ∧
      ¬ ∃ r s', allocPageAfterFault (emptyVm 1) 0 0x400000 = .ok (r, s') ∧
        Survived (emptyVm 1) 5 r s' :=
  ⟨exhaustion_not_survived (emptyVm 0) 0 5 0 0x400000 smallLive _ (emptyVm_site (by decide))
    (Or.inl ⟨_, rfl⟩),
    exhaustion_not_survived (emptyVm 1) 0 5 0 0x400000 smallLive _ (emptyVm_site (by decide))
      (Or.inr ⟨by decide, by decide, 8, _, _, rfl, rfl⟩)⟩

/-- **A fault without a free frame** stops the kernel. -/
theorem exhaustion_stops_kernel :
    ¬ ∀ (s : Vm) (e d v : ℕ) (va : BitVec 32) (live : List Block) (l : List ℕ),
      DemandSite s e d v va live l →
      (s.vma e v).type = .anon → (∀ w b, s.mm.leaf d (vpn va) = some (w, b) → w = 0) →
      OutOfMemory s d (s.vma e v) va →
        ∃ r s', allocPageAfterFault s e va = .ok (r, s') ∧ Survived s d r s' := by
  intro hall
  have habs : ∀ w b, (emptyVm 0).mm.leaf 5 (vpn 0x400000) = some (w, b) → w = 0 := by
    intro w b hw
    rw [emptyVm_leaf] at hw
    exact nomatch hw
  obtain ⟨r, s', hrun, -⟩ := hall (emptyVm 0) 0 5 0 0x400000 smallLive _ (emptyVm_site (by decide))
    rfl habs (Or.inl ⟨_, rfl⟩)
  have hpanic : allocPageAfterFault (emptyVm 0) 0 0x400000 =
      .error (.panic "pgdir_walk: PAGE_INFO IS NULL") := rfl
  rw [hpanic] at hrun
  exact nomatch hrun

end Jos
