/-
**A page on demand.**

An access to an absent page of an area that is not one of the program gets one frame, or a block of
1024 frames, and `page_insert` maps it. Up to `page_insert` nothing happens to the frames in use.

Main definitions:

* `Jos.AllocKeeps` — what `page_alloc` leaves alone, whatever is asked for;
* `Jos.DirSite`, `Jos.FaultSite` — a fault in an area, in a machine that is in order;
* `Jos.GotFrame` — the state in which `page_insert` is called.

Main results:

* `Jos.pageAlloc_keeps` — `page_alloc` does not touch frames in use;
* `Jos.FaultSite.demand` — **the rule for a page on demand**.
-/

import JosKernel.HugeInsert
import JosKernel.RegionFill

set_option relaxedAutoImplicit false
set_option autoImplicit false

namespace Jos

open LinkedList Outcome

/-! ### What `page_alloc` leaves alone -/

/-- **References, the lists of pages in use and the bytes of the frames in use are as before.** -/
structure AllocKeeps (m m' : Mm) : Prop where
  npages : m'.npages = m.npages
  lruLists : m'.lruLists = m.lruLists
  lruLink : m'.lruLink = m.lruLink
  ref : ∀ g, (m'.pages g).ppRef = (m.pages g).ppRef
  used : ∀ g, (m.pages g).has alloc = true → (m'.pages g).has alloc = true ∧ m'.mem g = m.mem g

namespace AllocKeeps

variable {m m' m'' : Mm}

theorem refl (m : Mm) : AllocKeeps m m := ⟨rfl, rfl, rfl, fun _ => rfl, fun _ h => ⟨h, rfl⟩⟩

theorem trans (h : AllocKeeps m m') (h' : AllocKeeps m' m'') : AllocKeeps m m'' := by
  refine ⟨h'.npages.trans h.npages, h'.lruLists.trans h.lruLists, h'.lruLink.trans h.lruLink,
    fun g => (h'.ref g).trans (h.ref g),
    fun g hg => ?_⟩
  obtain ⟨h₁, h₂⟩ := h.used g hg
  obtain ⟨h₃, h₄⟩ := h'.used g h₁
  exact ⟨h₃, h₄.trans h₂⟩

/-- A change of one `page_info` that keeps its mark. -/
theorem modPage (m : Mm) (pp : ℕ) {g : PageInfo → PageInfo}
    (hg : ∀ p, (g p).lruLink = p.lruLink ∧ (g p).ppRef = p.ppRef ∧
    (p.has alloc = true → (g p).has alloc = true)) : AllocKeeps m (m.modPage pp g) := by
  have hpage : ∀ i, ((m.modPage pp g).pages i).lruLink = (m.pages i).lruLink ∧
      ((m.modPage pp g).pages i).ppRef = (m.pages i).ppRef ∧
      ((m.pages i).has alloc = true → ((m.modPage pp g).pages i).has alloc = true) := by
    intro i
    by_cases hi : i = pp
    · subst hi
      rw [Mm.modPage_self]
      exact hg _
    · rw [Mm.modPage_of_ne _ _ hi]
      exact ⟨rfl, rfl, id⟩
  exact ⟨rfl, rfl, funext fun i => (hpage i).1, fun i => (hpage i).2.1, fun i hi =>
    ⟨(hpage i).2.2 hi, rfl⟩⟩

theorem setLink (m : Mm) (pp : ℕ) (q : Option ℕ) :
    AllocKeeps m (m.modPage pp (PageInfo.setLink q)) :=
  modPage m pp fun _ => ⟨rfl, rfl, id⟩

/-- The first page comes off the free list. -/
theorem takeHead (m : Mm) (pp : ℕ) (q : Option ℕ) :
    AllocKeeps m ({ m with pageFreeList := q }.modPage pp (PageInfo.setLink none)) := by
  have h := setLink { m with pageFreeList := q } pp none
  exact ⟨h.npages, h.lruLists, h.lruLink, h.ref, h.used⟩

theorem setFlag (m : Mm) (pp : ℕ) (flag : BitVec 32) :
    AllocKeeps m (m.modPage pp (PageInfo.set flag)) := by
  refine modPage m pp fun p => ⟨rfl, rfl, fun hp => ?_⟩
  rw [PageInfo.has, bne_iff_ne] at hp ⊢
  intro hc
  refine hp (BitVec.eq_of_getLsbD_eq fun i hi => ?_)
  have hbit := congrArg (·.getLsbD i) hc
  simp only [PageInfo.set, BitVec.getLsbD_and, BitVec.getLsbD_or] at hbit ⊢
  cases hp : p.pageFlags.getLsbD i with
  | false => simp
  | true =>
      rw [hp] at hbit
      simpa using hbit

end AllocKeeps

theorem decFreePages_keeps (m : Mm) : Ends (fun _ => True) (AllocKeeps m) (decFreePages m) :=
  ends_ite (fun _ => True.intro) fun _ => ⟨rfl, rfl, rfl, fun _ => rfl, fun _ h => ⟨h, rfl⟩⟩

theorem removeElementPfl_keeps (m : Mm) (pp : ℕ) :
    Ends (fun _ => True) (AllocKeeps m) (removeElementPfl m pp) := by
  unfold removeElementPfl
  refine ends_ite (fun _ => (decFreePages_keeps _).post fun _ h =>
    (AllocKeeps.takeHead m pp _).trans h) fun _ => ?_
  split
  · exact True.intro
  · exact AllocKeeps.refl m
  · exact True.intro
  · exact (decFreePages_keeps _).post fun _ h => ((AllocKeeps.setLink m _ _).trans
      (AllocKeeps.setLink _ _ _)).trans h

theorem removeHeadPfl_keeps (m : Mm) :
    Ends (fun _ => True) (fun r => AllocKeeps m r.2) (removeHeadPfl m) := by
  unfold removeHeadPfl
  cases m.pageFreeList with
  | none => exact True.intro
  | some pp =>
      refine ends_ite (fun _ => True.intro) fun _ => ?_
      rw [ends_bind]
      exact (decFreePages_keeps _).post fun _ h => (AllocKeeps.takeHead m pp _).trans h

theorem removeElement4MBPfl_keeps (m : Mm) :
    Ends (fun _ => True) (fun r => AllocKeeps m r.2) (removeElement4MBPfl m) := by
  unfold removeElement4MBPfl
  cases m.pageFreeList with
  | none => exact True.intro
  | some hd =>
      refine ends_ite (fun _ => AllocKeeps.takeHead m hd _) fun _ => ?_
      split
      · exact True.intro
      · exact AllocKeeps.refl m
      · exact True.intro
      · rw [ends_bind]
        exact (decFreePages_keeps _).post fun _ h =>
          ((AllocKeeps.setLink m _ _).trans (AllocKeeps.setLink _ _ _)).trans h

/-- A frame that is not in use may be cleared. -/
theorem memsetPage_keeps {m m' : Mm} {pp : ℕ} (hkeep : AllocKeeps m m')
    (hpp : (m.pages pp).has alloc = false) (v : BitVec 8) :
    Ends (fun _ => True) (AllocKeeps m) (memsetPage m' pp v) := by
  unfold memsetPage
  rw [ends_bind]
  refine Ends.of_forall (fun _ => ⟨hkeep.npages, hkeep.lruLists, hkeep.lruLink, hkeep.ref,
    fun g hg => ⟨(hkeep.used g hg).1, ?_⟩⟩) _
  have hne : g ≠ pp := by
    rintro rfl
    rw [hg] at hpp
    exact nomatch hpp
  exact (Function.update_of_ne hne ..).trans (hkeep.used g hg).2

theorem pageAllocFinish_keeps {m : Mm} {flags : BitVec 32} (hpois : flags &&& poisonAfterFree = 0)
    (pg : Option ℕ) :
    Ends (fun _ => True) (fun r => AllocKeeps m r.2) (pageAllocFinish flags pg m) := by
  unfold pageAllocFinish
  cases pg with
  | none => exact True.intro
  | some pp =>
      refine ends_ite (fun _ => True.intro) fun hout => ?_
      have hpp : (m.pages pp).has alloc = false := by
        by_contra hc
        exact hout (by rw [Bool.eq_true_of_not_eq_false hc, Bool.true_or])
      unfold markPoison
      rw [if_neg (not_not_intro hpois), pure_bind]
      refine Ends.ite_bind (ends_ite (fun _ => ?_) fun _ => AllocKeeps.setFlag m pp alloc)
      exact memsetPage_keeps (AllocKeeps.setFlag m pp alloc) hpp 0

theorem allocHugeRound_keeps {m : Mm} {flags : BitVec 32} (hpois : flags &&& poisonAfterFree = 0)
    (hp i : ℕ) :
    Ends (fun _ => True) (AllocKeeps m) (allocHugeRound flags hp m i) := by
  unfold allocHugeRound markPoison
  rw [if_neg (not_not_intro hpois), pure_bind]
  refine ends_ite (fun _ => True.intro) fun _ => ends_ite (fun _ => True.intro) fun hout => ?_
  have hend : ∀ m', AllocKeeps m m' → Ends (fun _ => True) (AllocKeeps m)
      (removeElementPfl (m'.modPage i (PageInfo.set alloc)) i) :=
    fun m' h => (removeElementPfl_keeps _ i).post fun m'' h' =>
      (h.trans (AllocKeeps.setFlag m' i alloc)).trans h'
  refine Ends.ite_bind (ends_ite (fun _ => ?_) fun _ => hend m (AllocKeeps.refl m))
  exact (memsetPage_keeps (AllocKeeps.refl m) (Bool.eq_false_of_not_eq_true hout) 0).post hend

/-- **`page_alloc`** does not touch frames in use. -/
theorem pageAlloc_keeps {m : Mm} {flags : BitVec 32} (hpois : flags &&& poisonAfterFree = 0) :
    Ends (fun _ => True) (fun r => AllocKeeps m r.2) (pageAlloc m flags) := by
  unfold pageAlloc
  refine ends_ite (fun _ => AllocKeeps.refl m) fun _ => ends_ite (fun _ => ?_) fun _ =>
    ends_ite (fun _ => ?_) fun _ => ?_
  · unfold pageAllocHuge markPoison
    cases findHugePage m with
    | none => exact AllocKeeps.refl m
    | some hp =>
        dsimp only
        rw [if_neg (not_not_intro hpois), pure_bind]
        refine ends_ite (fun _ => True.intro) fun _ => ?_
        rw [ends_bind]
        refine ends_foldlM_range' (P := fun _ m' => AllocKeeps m m')
          (AllocKeeps.setFlag m hp allocHuge) fun k _ m' h => ?_
        exact (allocHugeRound_keeps hpois hp (hp + k)).post fun m'' h' => h.trans h'
  · rw [ends_bind]
    refine (removeElement4MBPfl_keeps m).post fun r h => ?_
    exact (pageAllocFinish_keeps hpois r.1).post fun r' h' => h.trans h'
  · rw [ends_bind]
    refine (removeHeadPfl_keeps m).post fun r h => ?_
    exact (pageAllocFinish_keeps hpois (some r.1)).post fun r' h' => h.trans h'

/-- **A huge block** is the one that the search finds, and it leaves the free list with all its
frames. -/
theorem pageAlloc_outside {m : Mm} {live : List Block} {l : List ℕ} {flags : BitVec 32}
    (h : AllocInv m live l) (hpois : flags &&& poisonAfterFree = 0) (hh : flags &&& allocHuge ≠ 0) :
    Ends (CounterAssert m l) (fun r => (m.pageFreeList ≠ none → r.1 = findHugePage m) ∧
      ∀ f, r.1 = some f →
      Chain r.2.link r.2.pageFreeList ((hugeBlock f).outside l) ∧ findHugePage m =
        some f) (pageAlloc m flags) := by
  unfold pageAlloc
  refine ends_ite (fun hnone => ⟨fun hne => (hne hnone).elim, fun f hf => nomatch hf⟩) fun _ => ?_
  rw [if_pos hh]
  unfold pageAllocHuge
  cases hfind : findHugePage m with
  | none => exact ⟨fun _ => rfl, fun f hf => nomatch hf⟩
  | some hp =>
      obtain ⟨-, hnp, hfree⟩ := findHugePage_spec hfind
      have hzero : ∀ i, hp ≤ i → i < hp + kb → (m.pages i).pageFlags = 0 :=
        fun i hi hi' => (h.flags_of_not_alloc (hfree i hi hi')).1
      have hhead : (m.pages hp).pageFlags = 0 :=
        hzero hp (Nat.le_refl hp) (Nat.lt_add_of_pos_right (by decide))
      dsimp only
      unfold markPoison
      rw [if_neg (not_not_intro hpois), pure_bind, if_neg (by simp [PageInfo.has, hhead]),
        ends_bind]
      refine (ends_foldlM_range' (P := fun k s' => Carved m s' l hp k) (h.carved_zero hzero)
        fun k hk s' hc =>
        allocHugeRound_ends h hc hk hnp hpois).post fun s' hc => ⟨fun _ => rfl, fun f hf => ?_⟩
      obtain rfl := Option.some.inj hf
      refine ⟨?_, rfl⟩
      rw [← restList_kb]
      exact hc.chain

/-- A block that the search finds is handed out, when the counter is right. -/
theorem pageAlloc_found {m : Mm} {live : List Block} {l : List ℕ} {flags : BitVec 32} {f : ℕ}
    (h : AllocInv m live l) (hdrift : drift m l = 0) (hpois : flags &&& poisonAfterFree = 0)
    (hh : flags &&& allocHuge ≠ 0) (hlist : m.pageFreeList ≠ none)
    (hfind : findHugePage m = some f) : ∃ m', pageAlloc m flags = .ok (some f, m') := by
  obtain ⟨⟨pg, m'⟩, hrun, hpg, -⟩ :=
    (pageAlloc_outside h hpois hh).exists_ok fun _ hc => hc.2.1 hdrift
  obtain rfl : pg = some f := (hpg hlist).trans hfind
  exact ⟨m', hrun⟩

/-! ### The fault -/

/-- **A directory in a machine that is in order**: it and its page tables are frames that were
handed out. -/
structure DirSite (s : Vm) (e d : ℕ) (live : List Block) (l : List ℕ) : Prop where
  dir : s.pgdir e = some d
  inv : AllocInv s.mm live l
  tables : ∀ g, s.mm.WalkFrame d g → pageBlock g ∈ live
  user : ∀ i < pdx uTop, s.mm.HasTable d i → pgnum (s.mm.word d i) ≠ d
  apart : ∀ i < pdx uTop, ∀ j < 1024, s.mm.HasTable d i → s.mm.HasTable d j →
    pgnum (s.mm.word d i) = pgnum (s.mm.word d j) → i = j
  null : s.ref 0 = 0

/-- **A fault at `va` in the area `v`.** -/
structure FaultSite (s : Vm) (e d v : ℕ) (va : BitVec 32) (live : List Block) (l : List ℕ) :
    Prop extends DirSite s e d live l where
  low : va < uTop
  area : vmaLookup (s.envs e) va = .ok (some v)

/-- The request for a page of the area. -/
def demandFlags (a : Vma) : BitVec 32 := if a.hps then allocZero ||| allocHuge else allocZero

theorem demandFlags_poison (a : Vma) : demandFlags a &&& poisonAfterFree = 0 := by
  unfold demandFlags
  split <;> decide

theorem demandFlags_huge (a : Vma) : demandFlags a &&& allocHuge ≠ 0 ↔ a.hps = true := by
  unfold demandFlags
  cases a.hps <;> decide

/-- **The state in which `page_insert` is called** for the frame `f`: only the allocator and the
lists of pages in use have changed, and one counter of the environment. -/
structure GotFrame (s s₁ : Vm) (a : Vma) (f : ℕ) (live : List Block) (l l₁ : List ℕ) : Prop where
  taken : ∃ m, pageAlloc s.mm (demandFlags a) = .ok (some f, m)
  inv : AllocInv s₁.mm (blockOf (demandFlags a) f :: live) l₁
  npages : s₁.mm.npages = s.mm.npages
  ref : ∀ g, s₁.ref g = s.ref g
  used : ∀ g, (s.mm.pages g).has alloc = true → (s₁.mm.pages g).has alloc = true ∧
    s₁.mm.mem g = s.mm.mem g
  same : AreasKept s s₁
  steady : Steady s.mm l → a.hps = true → Steady s₁.mm l₁
  huge : a.hps = true → findHugePage s.mm = some f ∧ l₁ = (hugeBlock f).outside l
  list : ∀ m, pageAlloc s.mm (demandFlags a) = .ok (some f, m) → s₁.mm.pageFreeList = m.pageFreeList
  slots : s₁.envFrame = s.envFrame

theorem Steady.allocated {m m' : Mm} {l l' : List ℕ} {flags : BitVec 32} (h : Steady m l)
    (hkeep : AllocKeeps m m') (hpre : m'.premappedFlag = m.premappedFlag)
    (hdrift : drift m' l' = drift m l + (if SkipsCounter m flags then 1 else 0)) :
    Steady m' l' := by
  obtain ⟨hpre₀, hdrift₀, hsound⟩ := h
  refine ⟨hpre.trans hpre₀, ?_, hsound.congr hkeep.npages hkeep.lruLists hkeep.lruLink⟩
  rw [hdrift, hdrift₀, if_neg fun hc => ?_]
  · rfl
  · rw [hc.2.1] at hpre₀
    exact nomatch hpre₀

namespace DirSite

variable {s : Vm} {e d : ℕ} {live : List Block} {l : List ℕ}

theorem dirInv (h : DirSite s e d live l) : DirInv s.mm d l where
  unmarked g hg := h.inv.unmarked (h.tables g hg)
  user := h.user
  apart := h.apart
  free := h.inv.freeInv
  busy g hg := h.inv.not_mem_of_has (h.tables g hg) (pageBlock_has.2 rfl)

/-- The frames of the page tables are in use. -/
theorem used (h : DirSite s e d live l) {g : ℕ} (hg : s.mm.WalkFrame d g) :
    (s.mm.pages g).has alloc = true := by
  rw [PageInfo.has, (h.inv.held _ (h.tables g hg) g (pageBlock_has.2 rfl)).1]
  exact Block.flags_has_alloc ..

end DirSite

namespace FaultSite

variable {s : Vm} {e d v : ℕ} {va : BitVec 32} {live : List Block} {l : List ℕ}

theorem vpn_low (h : FaultSite s e d v va live l) : vpn va / 1024 < pdx uTop := by
  have hlt := pdx_lt_of_lt h.low
  rwa [pdx_eq] at hlt

/-- **A page on demand**: if there is no frame, `page_insert` gets `NULL`; otherwise it gets a
frame, and the page tables are as they were. -/
theorem demand (h : FaultSite s e d v va live l) {E : Crash → Prop} {Q : Bool × Vm → Prop}
    (hcrash : ∀ c, ¬ Steady s.mm l → E c)
    (hnone : (∃ m, pageAlloc s.mm (demandFlags (s.vma e v)) = .ok (none, m)) →
      E (.panic "pgdir_walk: PAGE_INFO IS NULL"))
    (hsome : ∀ f s₁ l₁, GotFrame s s₁ (s.vma e v) f live l l₁ →
      Ends E Q (pageInsert s₁ (some d) (some f) va (s.vma e v).perm)) :
    Ends E Q (demandPage s e v va) := by
  obtain ⟨a, ha⟩ : ∃ a, s.vma e v = a := ⟨_, rfl⟩
  rw [ha] at hnone hsome
  have hpois := demandFlags_poison a
  unfold demandPage
  rw [ha]
  change Ends E Q (pageAlloc s.mm (demandFlags a) >>= _)
  have hends := pageAlloc_ends (demandFlags a) h.inv
  have hkeeps := @pageAlloc_keeps s.mm (demandFlags a) hpois
  cases hrun : pageAlloc s.mm (demandFlags a) with
  | error c =>
      refine hcrash c fun hst => ?_
      rcases hends.of_error hrun with ⟨-, hdrift, -⟩ | ⟨-, -, hc⟩ | ⟨-, -, hc, -⟩
      · exact hdrift hst.2.1
      · exact hc hpois
      · rw [hst.1] at hc
        exact nomatch hc
  | ok r =>
      obtain ⟨pg, m⟩ := r
      obtain ⟨hpre, l₁, hinv, hdrift⟩ := hends.of_ok hrun
      have hkeep : AllocKeeps s.mm m := hkeeps.of_ok hrun
      have hdir : ∀ (m' : Mm) n, (addPages ({ s with mm := m' } : Vm) e n).pgdir e = some d :=
        fun m' n =>
        ((AreasKept.addPages ({ s with mm := m' } : Vm) e n).pgdir e).trans h.dir
      cases pg with
      | none =>
          have hdir₀ : ({ s with mm := m } : Vm).pgdir e = some d := h.dir
          change Ends E Q (pageInsert ({ s with mm := m } : Vm) (({ s with mm := m } : Vm).pgdir e)
            none va a.perm)
          rw [hdir₀]
          exact hnone ⟨m, hrun⟩
      | some f =>
          have hlist : ∀ m₁ : Mm, ∀ m', pageAlloc s.mm (demandFlags a) = .ok (some f, m') →
              m₁.pageFreeList = m.pageFreeList →
              m₁.pageFreeList = m'.pageFreeList := by
            intro m₁ m' hrun' heq
            obtain rfl : m = m' := (Prod.mk.inj (Except.ok.inj (hrun.symm.trans hrun'))).2
            exact heq
          have hsame : ∀ (m' : Mm) n, AreasKept s (addPages ({ s with mm := m' } : Vm) e n) :=
            fun m' n =>
            (@AreasKept.of_envs s { s with mm := m' } rfl rfl).trans (AreasKept.addPages _ e n)
          have hplain : ∀ n, GotFrame s (addPages ({ s with mm := m } : Vm) e n) a f live l l₁ :=
            fun n =>
            ⟨⟨m, hrun⟩, hinv, hkeep.npages, hkeep.ref, hkeep.used, hsame m n,
              fun hst _ => hst.allocated hkeep hpre hdrift, fun hhps => by
                obtain ⟨hchain, hfind⟩ := (pageAlloc_outside h.inv hpois
                  ((demandFlags_huge a).2 hhps)).of_ok hrun |>.2 f rfl
                exact ⟨hfind, Chain.unique hinv.chain hchain⟩, fun m' hm' => hlist m m' hm' rfl,
                  rfl⟩
          rw [ends_bind, ends_ok]
          dsimp only
          split
          · rw [hdir]
            exact hsome f _ l₁ (hplain 1024)
          · rename_i hhps
            split
            · rw [hdir]
              have hlru := lruHaInsert_lruOnly m f
              refine hsome f _ l₁ ⟨⟨m, hrun⟩, AllocInv.lruOnly hinv hlru,
                hlru.npages.trans hkeep.npages,
                fun g => (hlru.ref g).trans (hkeep.ref g), fun g hg =>
                  ⟨?_, (congrFun hlru.mem g).trans (hkeep.used g hg).2⟩,
                hsame (lruHaInsert m f) 1, fun _ hc => (hhps hc).elim, fun hc => (hhps hc).elim,
                fun m' hm' => hlist _ m' hm' hlru.freeList, rfl⟩
              change ((lruHaInsert m f).pages g).has alloc = true
              rw [PageInfo.has, hlru.flags]
              exact (hkeep.used g hg).1
            · rw [hdir]
              exact hsome f _ l₁ (hplain 1)

end FaultSite

/-! ### Where the frame goes -/

/-- Where the entry is 0 there is no page. -/
theorem Mm.translate_of_zero {m : Mm} {d q : ℕ} (h : ∀ w b, m.leaf d q = some (w, b) → w = 0) :
    m.translate d q = none := by
  cases hleaf : m.leaf d q with
  | none =>
      rw [Mm.translate, hleaf]
  | some r =>
      obtain ⟨w, b⟩ := r
      obtain rfl := h w b hleaf
      obtain ⟨hP, hH, -⟩ := Mm.leaf_eq_some hleaf
      cases b with
      | false =>
          rw [Mm.translate, hleaf]
          rfl
      | true =>
          unfold Mm.leaf at hleaf
          rw [if_pos hP, if_pos hH] at hleaf
          rw [(Prod.mk.inj (Option.some.inj hleaf)).1] at hP
          exact absurd hP (by decide)

namespace GotFrame

variable {s s₁ : Vm} {e d v f : ℕ} {va : BitVec 32} {live : List Block} {l l₁ : List ℕ}

/-- **The page tables are as they were**, and the new frame is none of them. -/
theorem tables (hg : GotFrame s s₁ (s.vma e v) f live l l₁) (h : FaultSite s e d v va live l) :
    DirInv s₁.mm d l₁ ∧ (∀ g, s₁.mm.WalkFrame d g ↔ s.mm.WalkFrame d g) ∧
      (∀ p, p / 1024 < pdx uTop → s₁.mm.leaf d p = s.mm.leaf d p) ∧
      (∀ i, s₁.mm.word d i = s.mm.word d i) := by
  have hmem : ∀ g, s.mm.WalkFrame d g → s₁.mm.mem g = s.mm.mem g :=
    fun g hw => (hg.used g (h.used hw)).2
  have hsame : SameTables s.mm s₁.mm d := SameTables.of_mem (hmem d (Or.inl rfl))
  have hlive : ∀ g, s.mm.WalkFrame d g → pageBlock g ∈ blockOf (demandFlags (s.vma e v)) f ::
      live := fun g hw =>
    List.mem_cons_of_mem _ (h.tables g hw)
  refine ⟨⟨h.dirInv.toTlbTables.congr hsame fun g hw => hg.inv.unmarked (hlive g hw),
    hg.inv.freeInv, fun g hw => ?_⟩,
    fun g => hsame.walkFrame_iff, fun p hp => ?_, Mm.word_of_mem (hmem d (Or.inl rfl))⟩
  · exact hg.inv.not_mem_of_has (hlive g (hsame.walkFrame_iff.1 hw)) (pageBlock_has.2 rfl)
  · exact Mm.leaf_congr (fun g hl => hmem g (Mm.lowFrame_walkFrame hl)) hp

theorem off (hg : GotFrame s s₁ (s.vma e v) f live l l₁) : f ∉ l₁ ∧ f < s₁.mm.npages ∧ f ≠ 0 := by
  have hb := List.mem_cons_self (a := blockOf (demandFlags (s.vma e v)) f) (l := live)
  have hhas := Block.has_start (blockOf (demandFlags (s.vma e v)) f)
  have hbound := hg.inv.bound _ hb
  have hlow := hg.inv.low _ hb
  have hsize : 0 < (blockOf (demandFlags (s.vma e v)) f).size := by
    rw [Block.size]
    split <;> decide
  change f + _ ≤ _ at hbound
  change 3 ≤ f at hlow
  exact ⟨hg.inv.not_mem_of_has hb hhas, by omega, by omega⟩

end GotFrame

/-- **With `PTE_PS`** the entry of the directory is written, whatever it was. -/
theorem pageInsert_big {s : Vm} {d f : ℕ} {va perm : BitVec 32} (hH : isHuge perm = true) :
    Ends (fun _ => True) (fun r => r.1 = true ∧ r.2.mm.word d (pdx va) = newPte f perm)
      (pageInsert s (some d) (some f) va perm) := by
  have hend : ∀ s₂ : Vm, ∀ (c : Prop) [Decidable c],
      ((if c then s₂.setRef f (s₂.ref f + 1) else s₂).writePte ⟨d, pdx va⟩ va f
        (page2pa f ||| perm ||| pteP)).mm.word d (pdx va) =
        newPte f perm := by
    intro s₂ c _
    rw [Vm.word_writePte, if_pos ⟨rfl, rfl⟩]
    rfl
  unfold pageInsert
  refine ends_ite (fun _ => True.intro) fun _ => ?_
  rw [if_pos hH]
  have hwalk : ∃ s₁, pgdirWalk s (some d) va .huge = .ok (some ⟨d, pdx va⟩, s₁) := by
    unfold pgdirWalk
    dsimp only
    split
    · exact ⟨s, rfl⟩
    · exact ⟨_, rfl⟩
  obtain ⟨s₁, hwalk⟩ := hwalk
  rw [hwalk, ends_bind, ends_ok]
  dsimp only
  refine Ends.ite_bind (ends_ite (fun _ => ?_) fun _ => ?_)
  · exact Ends.of_forall (fun s₂ => ⟨rfl, hend s₂ _⟩) _
  · exact ⟨rfl, hend s₁ _⟩

/-- **With `PTE_PS` in an empty slot** of the directory nothing else is written. -/
theorem pageInsert_bigEmpty {s : Vm} {d f : ℕ} {va perm : BitVec 32} (hH : isHuge perm = true)
    (habs : isPresent (s.mm.word d (pdx va)) = false) :
    Ends (fun _ => isPresent perm = true) (fun r => r.1 = true ∧ r.2.envs = s.envs ∧
      (∀ i, r.2.mm.word d i = if i = pdx va then newPte f perm else s.mm.word d i) ∧
      ∀ g ≠ d, r.2.mm.mem g = s.mm.mem g)
      (pageInsert s (some d) (some f) va perm) := by
  unfold pageInsert
  refine ends_ite (fun hP => hP) fun _ => ?_
  have hwalk : pgdirWalk s (some d) va .huge = .ok (some ⟨d, pdx va⟩, s.setPte ⟨d, pdx va⟩ 0) := by
    have hpte : ¬ isPresent (s.pte ⟨d, pdx va⟩) = true := by
      change ¬ isPresent (s.mm.word d (pdx va)) = true
      rw [habs]
      exact Bool.false_ne_true
    unfold pgdirWalk
    dsimp only
    rw [if_neg hpte]
    rfl
  have hzero : (s.setPte ⟨d, pdx va⟩ 0).pte ⟨d, pdx va⟩ = 0 := by
    change (s.setPte ⟨d, pdx va⟩ 0).mm.word d (pdx va) = 0
    rw [Vm.word_setPte, if_pos ⟨rfl, rfl⟩]
  rw [if_pos hH, hwalk, ends_bind, ends_ok]
  dsimp only
  rw [if_neg fun hc => by rw [hzero] at hc; exact absurd hc.1 (by decide)]
  have hmem : ∀ (c : Prop) [Decidable c], (if c then (s.setPte ⟨d, pdx va⟩ 0).setRef f
      ((s.setPte ⟨d, pdx va⟩ 0).ref f + 1)
      else s.setPte ⟨d, pdx va⟩ 0).mm.mem = (s.setPte ⟨d, pdx va⟩ 0).mm.mem ∧
      (if c then (s.setPte ⟨d, pdx va⟩ 0).setRef f ((s.setPte ⟨d, pdx va⟩ 0).ref f + 1)
        else s.setPte ⟨d, pdx va⟩ 0).envs = s.envs := by
    intro c _
    split <;> exact ⟨rfl, rfl⟩
  have hend : ∀ s₂ : Vm, s₂.mm.mem = (s.setPte ⟨d, pdx va⟩ 0).mm.mem →
      (∀ i, (s₂.writePte ⟨d, pdx va⟩ va f (newPte f perm)).mm.word d i = if i = pdx va then
        newPte f perm else s.mm.word d i) ∧
        ∀ g ≠ d, (s₂.writePte ⟨d, pdx va⟩ va f (newPte f perm)).mm.mem g = s.mm.mem g := by
    intro s₂ hs₂
    refine ⟨fun i => ?_, fun g hg => ?_⟩
    · rw [Vm.word_writePte]
      by_cases hi : i = pdx va
      · rw [if_pos ⟨rfl, hi⟩, if_pos hi]
      · rw [if_neg fun hc => hi hc.2, if_neg hi]
        refine (Mm.word_of_mem (congrFun hs₂ d) i).trans ?_
        rw [Vm.word_setPte, if_neg fun hc => hi hc.2]
    · refine (Function.update_of_ne hg ..).trans ?_
      rw [hs₂]
      exact Function.update_of_ne hg ..
  exact ⟨rfl, (hmem _).2, hend _ (hmem _).1⟩

/-- **With `PTE_PS` over a page table** that has nothing at the address: `page_remove` works on the
frame 0. -/
theorem pageInsert_bigTable {s : Vm} {d f : ℕ} {va perm : BitVec 32} (hH : isHuge perm = true)
    (hleaf : s.mm.leaf d (vpn va) = some (0, false))
    (hf : pteAddr (s.mm.word d (pdx va)) ≠ page2pa f) (hnull : s.ref 0 = 0) :
    Ends (fun _ => True) (fun _ => False) (pageInsert s (some d) (some f) va perm) := by
  obtain ⟨hP, -, hw⟩ := Mm.leaf_eq_some hleaf
  rw [← pdx_eq] at hP
  have hpte : isPresent (s.pte ⟨d, pdx va⟩) = true := hP
  have hwalk : pgdirWalk s (some d) va .huge = .ok (some ⟨d, pdx va⟩, s) := by
    unfold pgdirWalk
    dsimp only
    rw [if_pos hpte]
    rfl
  have hzero : s.pte (s.mm.leafPtr d (vpn va)) = 0 := hw.symm
  unfold pageInsert
  refine ends_ite (fun _ => True.intro) fun _ => ?_
  rw [if_pos hH, hwalk, ends_bind, ends_ok]
  dsimp only
  rw [if_pos ⟨hpte, hf⟩, ends_bind]
  have hremove : Ends (fun _ => True) (fun _ => False) (pageRemove s (some d) va) := by
    refine pageRemove_rule (P := fun _ => False) (fun hnone => ?_) (fun _ pp _ hpp href => ?_)
      fun _ hc => hc.elim
    · rw [hleaf] at hnone
      exact nomatch hnone
    · rw [hzero] at hpp
      obtain rfl : pp = 0 := hpp.symm
      exact absurd hnull href
  exact hremove.post fun _ hc => hc.elim

/-- **With `PTE_PS` over a page table**, at an address without a page, `page_insert` stops the
kernel. -/
theorem GotFrame.insert_bigTable {s s₁ : Vm} {e d v f : ℕ} {va perm : BitVec 32} {live : List Block}
    {l l₁ : List ℕ} (hg : GotFrame s s₁ (s.vma e v) f live l l₁) (h : FaultSite s e d v va live l)
    (habs : ∀ w b, s.mm.leaf d (vpn va) = some (w, b) → w = 0) (hH : isHuge perm = true)
    (hP : isPresent (s₁.mm.word d (pdx va)) = true) :
    Ends (fun _ => True) (fun _ => False) (pageInsert s₁ (some d) (some f) va perm) := by
  have hzero := Mm.translate_of_zero habs
  obtain ⟨-, hwalk, hleaf, -⟩ := hg.tables h
  have hleaf₁ : s₁.mm.leaf d (vpn va) = some (0, false) := by
    rw [pdx_eq] at hP
    cases hl : s₁.mm.leaf d (vpn va) with
    | none =>
        rw [Mm.leaf_eq_none, hP] at hl
        cases hl
    | some r =>
        obtain ⟨w, b⟩ := r
        have hw := habs w b ((hleaf _ h.vpn_low).symm.trans hl)
        subst hw
        cases b with
        | false => rfl
        | true =>
            rw [hleaf _ h.vpn_low] at hl
            rw [Mm.translate, hl] at hzero
            cases hzero
  have hne : pteAddr (s₁.mm.word d (pdx va)) ≠ page2pa f := by
    intro hc
    obtain ⟨hPw, hHw, -⟩ := Mm.leaf_eq_some hleaf₁
    have hlt : f < 2 ^ 20 := Nat.lt_of_lt_of_le hg.off.2.1 s₁.mm.npages_le
    have hf₀ := (pteAddr_eq_page2pa_iff hlt).1 hc
    rw [pdx_eq] at hf₀
    have hw : s.mm.WalkFrame d f := (hwalk f).1 (hf₀ ▸ Mm.HasTable.walkFrame ⟨hPw, hHw⟩ h.vpn_low)
    have hapart := (List.pairwise_cons.1 hg.inv.apart).1 _ (h.tables f hw) f (Block.has_start _)
    exact hapart (pageBlock_has.2 rfl)
  refine pageInsert_bigTable hH hleaf₁ hne ?_
  rw [hg.ref]
  exact h.null

/-- **Without a free frame for the page table** nothing is inserted. -/
theorem pageInsert_noTable {s : Vm} {d f : ℕ} {va perm : BitVec 32} (hP : isPresent perm = false)
    (hH : isHuge perm = false) (habs : isPresent (s.mm.word d (pdx va)) = false)
    (hlist : s.mm.pageFreeList = none) :
    pageInsert s (some d) (some f) va perm = .ok (false, s) := by
  have hpte : ¬ isPresent (s.pte ⟨d, pdx va⟩) = true := by
    change ¬ isPresent (s.mm.word d (pdx va)) = true
    rw [habs]
    exact Bool.false_ne_true
  have hwalk : pgdirWalk s (some d) va .normal = .ok (none, s) := by
    unfold pgdirWalk pageAlloc
    dsimp only
    rw [if_neg hpte, if_pos hlist]
    rfl
  unfold pageInsert
  dsimp only
  rw [if_neg (by rw [hP]; exact Bool.false_ne_true), hH, if_neg Bool.false_ne_true, hwalk]
  rfl

/-! ### A machine with one area -/

/-- The words: an entry of the directory in frame 5, two entries of the page table in frame 6, and
what all other frames hold. -/
def smallWord (pde w₀ w₁ x : BitVec 32) (f i : ℕ) : BitVec 32 :=
  if f = 5 then if i = 1 then pde else 0
  else if f = 6 then if i = 0 then w₀ else if i = 1 then w₁ else 0
  else x

/-- The frames 5 to 7 are in use. -/
def smallFlags (i : ℕ) : BitVec 32 := if 5 ≤ i ∧ i ≤ 7 ∨ i = 160 then alloc else 0

/-- A machine with the area `a`, in which the `n` frames from `b` on are free. -/
def smallVm (a : Vma) (pde w₀ w₁ x : BitVec 32) (b n : ℕ) : Vm where
  mm := ⟨2048, frames_blocks, false, fun i => ⟨if b ≤ i then linkUpTo (b + n) (i + 1)
    else none, none, if i = 7 then 1 else 0, smallFlags i⟩,
    linkUpTo (b + n) b, BitVec.ofNat 32 n, ⟨none, none, none, none, none, none⟩, 0, 0,
    bytesOf (smallWord pde w₀ w₁ x)⟩
  envs _ := ⟨some 5, fun _ => a, some 0, none, 0⟩
  kernPgdir _ := 0
  image _ := 0
  envFrame _ := 0
  written := []

/-- The blocks that are out. -/
def smallLive : List Block := [pageBlock 5, pageBlock 6, pageBlock 7]

section

variable {a : Vma} {pde w₀ w₁ x : BitVec 32} {b n : ℕ}

theorem smallVm_word (f i : ℕ) :
    (smallVm a pde w₀ w₁ x b n).mm.word f i = smallWord pde w₀ w₁ x f i :=
  Mm.word_bytesOf (w := smallWord pde w₀ w₁ x) rfl i

theorem smallVm_inv (hb : 8 ≤ b) (hout : b + n ≤ 160 ∨ 160 < b ∧ b + n ≤ 2048) :
    AllocInv (smallVm a pde w₀ w₁ x b n).mm smallLive (List.range' b n) where
  chain := chain_linkUpTo n b rfl fun _ hj _ => if_pos hj
  listed i hi := by
    rw [List.mem_range'_1] at hi
    refine ⟨by omega, ?_, if_neg (by omega), if_neg (by omega)⟩
    change i < 2048
    omega
  aligned c hc hh := by
    simp only [smallLive, List.mem_cons, List.not_mem_nil, or_false] at hc
    rcases hc with rfl | rfl | rfl <;> exact absurd hh (by decide)
  low c hc := by
    simp only [smallLive, List.mem_cons, List.not_mem_nil, or_false] at hc
    rcases hc with rfl | rfl | rfl <;> decide
  bound c hc := by
    simp only [smallLive, List.mem_cons, List.not_mem_nil, or_false] at hc
    rcases hc with rfl | rfl | rfl
    all_goals
      change _ ≤ 2048
      decide
  held c hc i hi := by
    have hlow : 5 ≤ i ∧ i ≤ 7 ∧ c.flags i = alloc := by
      simp only [smallLive, List.mem_cons, List.not_mem_nil, or_false] at hc
      rcases hc with rfl | rfl | rfl
      all_goals
        obtain rfl := pageBlock_has.1 hi
        decide
    refine ⟨?_, if_neg (by omega)⟩
    rw [hlow.2.2]
    exact if_pos (Or.inl ⟨hlow.1, hlow.2.1⟩)
  apart := by
    simp only [smallLive, List.pairwise_cons, List.mem_cons, List.not_mem_nil, or_false,
      forall_eq_or_imp, forall_eq,
      pageBlock_has, IsEmpty.forall_iff, implies_true, and_true, List.Pairwise.nil]
    omega
  rest i hi _ := by
    rw [List.mem_range'_1] at hi
    refine ⟨?_, ?_⟩
    · change (if b ≤ i then linkUpTo (b + n) (i + 1) else none) = none
      unfold linkUpTo
      split
      · exact if_neg (by omega)
      · rfl
    change smallFlags i = 0 ∨ smallFlags i = alloc
    rw [smallFlags]
    split
    · exact Or.inr rfl
    · exact Or.inl rfl
  hole := by
    refine ⟨rfl, fun c hc => ?_⟩
    simp only [smallLive, List.mem_cons, List.not_mem_nil, or_false] at hc
    rcases hc with rfl | rfl | rfl <;> decide

theorem smallVm_steady : Steady (smallVm a pde w₀ w₁ x b n).mm (List.range' b n) := by
  refine ⟨rfl, ?_, fun _ => [], by intro q; cases q <;> rfl, by simp, by simp⟩
  simp [drift, smallVm]

/-- The page in the frame 7. -/
theorem smallVm_held : (smallVm a pde w₀ w₁ x b n).mm.Held 7 := by
  have hflags : ((smallVm a pde w₀ w₁ x b n).mm.pages 7).pageFlags = alloc := rfl
  rw [Mm.Held, PageInfo.has, PageInfo.has, hflags]
  exact ⟨(by decide : 7 < 2048), by decide, by decide⟩

/-- Where the directory has an entry. -/
theorem smallVm_dir {i : ℕ} (h : isPresent ((smallVm a pde w₀ w₁ x b n).mm.word 5 i) = true) :
    i = 1 ∧ isPresent pde = true := by
  rw [smallVm_word, smallWord, if_pos rfl] at h
  split at h
  · rename_i hi
    exact ⟨hi, h⟩
  · exact absurd h (by decide)

theorem smallVm_walk (hpde : isPresent pde = true → isHuge pde = false → pgnum pde = 6) {g : ℕ}
    (h : (smallVm a pde w₀ w₁ x b n).mm.WalkFrame 5 g) : g = 5 ∨ g = 6 := by
  rcases h with rfl | ⟨i, -, htab, rfl⟩
  · exact Or.inl rfl
  · obtain ⟨rfl, hP⟩ := smallVm_dir htab.1
    have hw : (smallVm a pde w₀ w₁ x b n).mm.word 5 1 = pde := smallVm_word 5 1
    rw [Mm.HasTable, hw] at htab
    rw [hw]
    exact Or.inr (hpde hP htab.2)

theorem smallVm_fault {e : ℕ} {va : BitVec 32} (hb : 8 ≤ b)
    (hout : b + n ≤ 160 ∨ 160 < b ∧ b + n ≤ 2048)
    (hpde : isPresent pde = true → isHuge pde = false → pgnum pde = 6) (hva : va < uTop)
    (hcov : a.covers va = true) :
    FaultSite (smallVm a pde w₀ w₁ x b n) e 5 0 va smallLive (List.range' b n) where
  dir := rfl
  low := hva
  area := by
    have hseek : seek ((smallVm a pde w₀ w₁ x b n).envs e).link
        (fun i => (((smallVm a pde w₀ w₁ x b n).envs e).vmas i).covers va) nVma none
        ((smallVm a pde w₀ w₁ x b n).envs e).allocVmaList = some (some (none, 0)) := if_pos hcov
    rw [vmaLookup, hseek]
    rfl
  inv := smallVm_inv hb hout
  tables g hg := by
    rcases smallVm_walk hpde hg with rfl | rfl <;> simp [smallLive]
  user i _ htab := by
    obtain ⟨rfl, hP⟩ := smallVm_dir htab.1
    have hw : (smallVm a pde w₀ w₁ x b n).mm.word 5 1 = pde := smallVm_word 5 1
    rw [Mm.HasTable, hw] at htab
    rw [hw, hpde hP htab.2]
    decide
  apart i _ j _ hi hj _ := (smallVm_dir hi.1).1.trans (smallVm_dir hj.1).1.symm
  null := rfl

/-- Where a page is mapped. -/
theorem smallVm_translate (hpde : pde = 0 ∨ pde = 0x6007) (hw : isPresent w₀ = false) {q f : ℕ}
    {c : Bool} (h : (smallVm a pde w₀ w₁ x b n).mm.translate 5 q = some (f, c)) :
    q = 1025 ∧ f = pgnum w₁ ∧ c = false := by
  have hdir : isPresent ((smallVm a pde w₀ w₁ x b n).mm.word 5 (q / 1024)) = true := by
    by_contra hno
    rw [Mm.translate, Mm.leaf_eq_none.2 (Bool.eq_false_of_not_eq_true hno)] at h
    cases h
  obtain ⟨hi, hP⟩ := smallVm_dir hdir
  obtain rfl : pde = 0x6007 := by
    rcases hpde with rfl | rfl
    · exact absurd hP (by decide)
    · rfl
  have hleaf : (smallVm a 0x6007 w₀ w₁ x b n).mm.leaf 5
      q = some (smallWord 0x6007 w₀ w₁ x 6 (q % 1024), false) := by
    have hpg : pgnum 0x6007 = 6 := by decide
    rw [Mm.leaf, hi, smallVm_word, smallWord, if_pos rfl, if_pos rfl, if_pos (by decide),
      if_neg (by decide), hpg, smallVm_word]
  have hword : smallWord 0x6007 w₀ w₁ x 6 (q % 1024) = if q % 1024 = 0 then w₀
      else if q % 1024 = 1 then w₁ else 0 :=
    (if_neg (by decide)).trans (if_pos rfl)
  rw [Mm.translate, hleaf, hword] at h
  by_cases h₀ : q % 1024 = 0
  · rw [if_pos h₀] at h
    dsimp only at h
    rw [hw] at h
    cases h
  rw [if_neg h₀] at h
  by_cases h₁ : q % 1024 = 1
  · rw [if_pos h₁] at h
    dsimp only at h
    split at h
    · obtain ⟨rfl, rfl⟩ := Prod.mk.inj (Option.some.inj h)
      exact ⟨by omega, rfl, rfl⟩
    · cases h
  · rw [if_neg h₁] at h
    cases h

end

end Jos
