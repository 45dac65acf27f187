/-
**A fault in an area of huge pages.**

`alloc_page_after_fault` asks for a block of 1024 frames, but it is `PTE_PS` in the permissions of
the area that makes `page_insert` map it as one, and `sys_vma_create` does not set it. Without it
the first frame of the block is mapped at the address of the fault, and the other pages stay absent.

Main definitions:

* `Jos.HugeSite` — a fault in an area of huge pages;
* `Jos.HugeInstalled` — **the block is mapped as far as the area goes**;
* `Jos.HugeFits` — when it is.

Main results:

* `Jos.HugeSite.demand_block` — the insertion of the block;
* `Jos.hugeFault_iff` — **the exact condition for the block to be mapped**.
-/

import JosKernel.FaultLocal

set_option relaxedAutoImplicit false
set_option autoImplicit false

namespace Jos

open LinkedList Outcome

/-! ### What is expected -/

/-- **A fault on an absent page of an area of huge pages**, in a machine that is in order. -/
structure HugeSite (s : Vm) (e d v : ℕ) (va : BitVec 32) (live : List Block) (l : List ℕ) :
    Prop extends
    FaultSite s e d v va live l where
  steady : Steady s.mm l
  fits : (s.vma e v).Fits
  huge : (s.vma e v).hps = true
  anon : (s.vma e v).type ≠ .binary
  absent : ∀ w b, s.mm.leaf d (vpn va) = some (w, b) → w = 0
  used : ∀ q f b, q / 1024 < pdx uTop → s.mm.translate d q = some (f, b) →
    (s.mm.pages f).has alloc = true

/-- **The pages around `va` that lie in the area `a`** are mapped to the frames of the block at `f`,
in their order, with the permissions of the area. -/
def BlockMapped (m : Mm) (d : ℕ) (a : Vma) (va : BitVec 32) (f : ℕ) : Prop :=
  ∀ q, a.Spans q → q / 1024 = vpn va / 1024 → ∃ w b, m.leaf d q = some (w, b) ∧
    isWritable w = isWritable a.perm ∧
    isUser w = isUser a.perm ∧ m.translate d q = some (f + q % 1024, b)

/-- **The fault is handled, the block at `f` is mapped, and no access to it finds an absent page
again.** -/
def HugeInstalled (s : Vm) (e d : ℕ) (a : Vma) (va : BitVec 32) (f : ℕ) : Prop :=
  ∃ s', allocPageAfterFault s e va = .ok (.resumed, s') ∧ BlockMapped s'.mm d a va f ∧
    ∀ x, a.Spans (vpn x) → vpn x / 1024 = vpn va / 1024 →
      ∀ user write, mmu s' e x user write ≠ .notPresent

/-- **When the block is mapped**: with `PTE_PS`, in an empty slot; without it, when the area has one
page there, the first of the block. -/
def HugeFits (s : Vm) (d f : ℕ) (a : Vma) (va : BitVec 32) (l : List ℕ) : Prop :=
  isPresent a.perm = false ∧
    (isHuge a.perm = true → isPresent (s.mm.word d (pdx va)) = false ∧
      pgnum (newPte f a.perm) / 1024 = f / 1024) ∧
    (isHuge a.perm = false → (∀ q, a.Spans q → q / 1024 = vpn va / 1024 → q = vpn va) ∧
      pgnum (newPte f a.perm) = f + vpn va % 1024 ∧
      (isPresent (s.mm.word d (pdx va)) = true ∨ ∃ g ∈ l, ¬ (hugeBlock f).Has g))

/-- What `page_insert` makes of the block. -/
def BlockEnd (s : Vm) (e d f : ℕ) (a : Vma) (va : BitVec 32) (l : List ℕ) (r : Bool × Vm) : Prop :=
  (r.1 = true → r.2.pgdir e = some d) ∧
    (r.1 = true ∧ BlockMapped r.2.mm d a va f ↔ HugeFits s d f a va l)

/-! ### The insertion of the block -/

/-- A page that is mapped is there for every access. -/
theorem mmu_of_translate {s : Vm} {e d : ℕ} (hd : s.pgdir e = some d) {x : BitVec 32} {f : ℕ}
    {b : Bool} (h : s.mm.translate d (vpn x) = some (f, b)) (user write : Bool) :
    mmu s e x user write ≠ .notPresent := by
  rw [mmu_eq hd]
  unfold Mm.translate at h
  cases hleaf : s.mm.leaf d (vpn x) with
  | none =>
      rw [hleaf] at h
      exact nomatch h
  | some r =>
      obtain ⟨w, c⟩ := r
      rw [hleaf] at h
      cases c with
      | true =>
          dsimp only
          split <;> nofun
      | false =>
          dsimp only at h ⊢
          split at h
          · rename_i hP
            rw [if_neg (not_not_intro hP)]
            split <;> nofun
          · exact nomatch h

namespace HugeSite

variable {s s₁ : Vm} {e d v f : ℕ} {va : BitVec 32} {live : List Block} {l l₁ : List ℕ}

theorem spans (h : HugeSite s e d v va live l) : (s.vma e v).Spans (vpn va) :=
  h.fits.spans_of_covers (vmaLookup_covers h.area)

/-- `page_insert` of the first frame of a block as a 4 KB page. -/
theorem insert_small (h : HugeSite s e d v va live l) (hg : GotFrame s s₁ (s.vma e v) f live l l₁)
    (hP : isPresent (s.vma e v).perm = false) (hH : isHuge (s.vma e v).perm = false) :
    Ends (fun _ => False) (BlockEnd s e d f (s.vma e v) va l)
      (pageInsert s₁ (some d) (some f) va (s.vma e v).perm) := by
  obtain ⟨hinv, hwalk, hleaf, hdir⟩ := hg.tables h.toFaultSite
  obtain ⟨hfind, rfl⟩ := hg.huge h.huge
  obtain ⟨-, hbound, hfree⟩ := findHugePage_spec hfind
  have hzero : s₁.mm.translate d (vpn va) = none :=
    (Mm.translate_congr (hleaf _ h.vpn_low)).trans (Mm.translate_of_zero h.absent)
  have hno : ∀ g, ¬ s₁.mm.MapsTo d (vpn va) g := by
    intro g hc
    rw [Mm.mapsTo_iff, hzero] at hc
    cases hc
  have hsmall : isPresent (s₁.mm.word d (vpn va / 1024)) = true →
      isHuge (s₁.mm.word d (vpn va / 1024)) = false := by
    refine Mm.small_of_leaf fun w hw => ?_
    rw [Mm.translate, hw] at hzero
    cases hzero
  by_cases hnone : isPresent (s₁.mm.word d (pdx va)) = false ∧ (hugeBlock f).outside l = []
  · -- there is no frame for the page table
    obtain ⟨habs, hnil⟩ := hnone
    have hlist : s₁.mm.pageFreeList = none := by
      have hchain := hg.inv.chain
      rw [hnil] at hchain
      exact hchain
    rw [pageInsert_noTable hP hH habs hlist]
    refine ⟨fun hc => (by cases hc), fun hc => (by cases hc.1), fun hfit => ?_⟩
    rcases (hfit.2.2 hH).2.2 with htab | ⟨g, hgl, hout⟩
    · rw [hdir] at habs
      rw [habs] at htab
      cases htab
    · have hmem := Block.mem_outside.2 ⟨hgl, hout⟩
      rw [hnil] at hmem
      exact (List.not_mem_nil hmem).elim
  have hroom : isPresent (s.mm.word d (pdx va)) = true ∨ ∃ g ∈ l, ¬ (hugeBlock f).Has g := by
    by_cases htab : isPresent (s.mm.word d (pdx va)) = true
    · exact Or.inl htab
    · have hne : (hugeBlock f).outside l ≠ [] := by
        intro hc
        rw [hdir] at hnone
        exact hnone ⟨Bool.eq_false_of_not_eq_true htab, hc⟩
      obtain ⟨g, hgl⟩ := List.exists_mem_of_ne_nil _ hne
      exact Or.inr ⟨g, Block.mem_outside.1 hgl⟩
  refine (pageInsert_placed hinv h.vpn_low hsmall hH hg.off.1
    fun g hc => (hno g hc).elim).mono ?_ ?_
  · rintro _ (hc | ⟨g, hc⟩ | hc)
    · rw [hP] at hc
      cases hc
    · exact hno g hc
    · refine hc ⟨hg.steady h.steady h.huge, fun g hw => ?_⟩
      have hlt := h.inv.bound _ (h.tables g ((hwalk g).1 hw))
      rw [hg.npages]
      exact Nat.lt_of_succ_le hlt
  rintro r (⟨-, hnil, habs⟩ | ⟨hok, l₂, hput⟩)
  · refine (hnone ⟨?_, hnil⟩).elim
    rw [pdx_eq]
    exact Mm.leaf_eq_none.1 habs
  have hself : r.2.mm.translate d (vpn va) = some (pgnum (newPte f (s.vma e v).perm), false) :=
    Mm.mapsTo_iff.1 ⟨_, hput.leaf_self, isPresent_newPte _ _, rfl⟩
  have hpg : r.2.pgdir e = some d :=
    (congrArg Space.pgdir (congrFun hput.space.envs e)).trans ((hg.same.pgdir e).trans h.dir)
  refine ⟨fun _ => hpg, ?_, ?_⟩
  · rintro ⟨-, hmap⟩
    refine ⟨hP, fun hc => absurd hc (by rw [hH]; exact Bool.false_ne_true), fun _ =>
      ⟨fun q hq hblock => ?_, ?_, hroom⟩⟩
    · by_contra hne
      obtain ⟨w, b, -, -, -, ht⟩ := hmap q hq hblock
      have hlow : q / 1024 < pdx uTop := by
        rw [hblock]
        exact h.vpn_low
      rcases hput.leaf_other q hne hlow with hsame | ⟨-, -, hz⟩
      · -- a page of the block has been in use before
        rw [Mm.translate_congr hsame, Mm.translate_congr (hleaf q hlow)] at ht
        have halloc := h.used q _ b hlow ht
        have hmod : q % 1024 < kb := Nat.mod_lt _ (by decide)
        rw [hfree _ (Nat.le_add_right ..) (Nat.add_lt_add_left hmod f)] at halloc
        cases halloc
      · rw [Mm.translate, hz] at ht
        cases ht
    · obtain ⟨w, b, -, -, -, ht⟩ := hmap (vpn va) h.spans rfl
      rw [hself] at ht
      exact (Prod.mk.inj (Option.some.inj ht)).1
  · rintro ⟨-, -, hfit⟩
    obtain ⟨hone, hpgn, -⟩ := hfit hH
    refine ⟨hok, fun q hq hblock => ?_⟩
    rw [hone q hq hblock]
    refine ⟨_, false, hput.leaf_self, isWritable_newPte _ _, isUser_newPte _ _, ?_⟩
    rw [hself, hpgn]

/-- `page_insert` of a block as a 4 MB page. -/
theorem insert_big (h : HugeSite s e d v va live l) (hg : GotFrame s s₁ (s.vma e v) f live l l₁)
    (hP : isPresent (s.vma e v).perm = false) (hH : isHuge (s.vma e v).perm = true) :
    Ends (fun _ => ¬ HugeFits s d f (s.vma e v) va l) (BlockEnd s e d f (s.vma e v) va l)
      (pageInsert s₁ (some d) (some f) va (s.vma e v).perm) := by
  obtain ⟨-, -, hleaf, hdir⟩ := hg.tables h.toFaultSite
  obtain ⟨hfind, -⟩ := hg.huge h.huge
  obtain ⟨⟨k, hk⟩, -, -⟩ := findHugePage_spec hfind
  rw [show kb = 1024 from rfl] at hk
  have hd₁ : s₁.pgdir e = some d := (hg.same.pgdir e).trans h.dir
  cases hpde : isPresent (s₁.mm.word d (pdx va)) with
  | true =>
      refine (hg.insert_bigTable h.toFaultSite h.absent hH hpde).mono (fun _ _ hfit => ?_)
        fun _ hc => hc.elim
      rw [hdir, (hfit.2.1 hH).1] at hpde
      cases hpde
  | false =>
      refine (pageInsert_bigEmpty hH hpde).mono (fun _ hc => ?_) ?_
      · rw [hP] at hc
        cases hc
      rintro r ⟨hok, henvs, hword, -⟩
      have hpg : r.2.pgdir e = some d := (congrArg Space.pgdir (congrFun henvs e)).trans hd₁
      have hnew : ∀ q, q / 1024 = vpn va / 1024 →
          r.2.mm.leaf d q = some (newPte f (s.vma e v).perm, true) := by
        intro q hq
        rw [Mm.leaf, hq, ← pdx_eq, hword, if_pos rfl, if_pos (isPresent_newPte _ _),
          if_pos (by rw [isHuge_newPte]; exact hH)]
      refine ⟨fun _ => hpg, ?_, ?_⟩
      · rintro ⟨-, hmap⟩
        refine ⟨hP, fun _ => ⟨?_, ?_⟩, fun hc => absurd hH (Bool.eq_false_iff.1 hc)⟩
        · rw [← hdir]
          exact hpde
        · obtain ⟨w, b, -, -, -, ht⟩ := hmap (vpn va) h.spans rfl
          rw [Mm.translate, hnew _ rfl] at ht
          have heq := (Prod.mk.inj (Option.some.inj ht)).1
          omega
      · rintro ⟨-, hfit, -⟩
        refine ⟨hok, fun q _ hblock =>
          ⟨_, true, hnew q hblock, isWritable_newPte _ _, isUser_newPte _ _, ?_⟩⟩
        rw [Mm.translate, hnew q hblock]
        dsimp only
        rw [(hfit hH).2, show f / 1024 * 1024 = f by omega]

/-- **The insertion of the block**: it is mapped exactly when it fits. -/
theorem demand_block (h : HugeSite s e d v va live l) {m : Mm}
    (hgot : pageAlloc s.mm (allocZero ||| allocHuge) = .ok (some f, m)) :
    Ends (fun _ => ¬ HugeFits s d f (s.vma e v) va l) (BlockEnd s e d f (s.vma e v) va l)
      (demandPage s e v va) := by
  have hflags : demandFlags (s.vma e v) = allocZero ||| allocHuge := by
    rw [demandFlags, h.huge]
    rfl
  refine h.demand (fun c hns => (hns h.steady).elim) ?_ fun f' s₁ l₁ hg => ?_
  · rintro ⟨m', hnone⟩
    rw [hflags, hgot] at hnone
    exact nomatch (Prod.mk.inj (Except.ok.inj hnone)).1
  obtain ⟨m', htaken⟩ := hg.taken
  rw [hflags, hgot] at htaken
  obtain rfl := Option.some.inj (Prod.mk.inj (Except.ok.inj htaken)).1
  cases hP : isPresent (s.vma e v).perm with
  | true =>
      have hcrash : pageInsert s₁ (some d) (some f) va (s.vma e v).perm =
          .error (.panic "page_insert: PTE_P already set in perms!") := by
        unfold pageInsert
        dsimp only
        rw [if_pos hP]
        rfl
      rw [hcrash]
      intro hfit
      rw [hfit.1] at hP
      exact nomatch hP
  | false =>
      cases hH : isHuge (s.vma e v).perm with
      | true => exact h.insert_big hg hP hH
      | false => exact (h.insert_small hg hP hH).mono (fun _ hc => hc.elim) fun _ hr => hr

/-- A block that is mapped fits. -/
theorem fits_of_installed (h : HugeSite s e d v va live l) {m : Mm}
    (hgot : pageAlloc s.mm (allocZero ||| allocHuge) = .ok (some f, m))
    (hinst : HugeInstalled s e d (s.vma e v) va f) : HugeFits s d f (s.vma e v) va l := by
  obtain ⟨s', hrun, hmap, -⟩ := hinst
  rw [allocPageAfterFault_eq h.area, if_neg h.anon, allocAnon_eq] at hrun
  obtain ⟨⟨ok, s₂⟩, hdemand, hrest⟩ := bind_eq_ok.1 hrun
  cases ok with
  | false =>
      obtain ⟨s₃, -, hend⟩ := bind_eq_ok.1 hrest
      exact nomatch congrArg Prod.fst (Except.ok.inj hend)
  | true =>
      obtain rfl : s₂ = s' := congrArg Prod.snd (Except.ok.inj hrest)
      have hend : BlockEnd s e d f (s.vma e v) va l (true, s₂) :=
        (h.demand_block hgot).of_ok hdemand
      exact hend.2.1 ⟨rfl, hmap⟩

/-- A block that fits is mapped. -/
theorem installed_of_fits (h : HugeSite s e d v va live l) {m : Mm}
    (hgot : pageAlloc s.mm (allocZero ||| allocHuge) = .ok (some f, m))
    (hfit : HugeFits s d f (s.vma e v) va l) : HugeInstalled s e d (s.vma e v) va f := by
  have hrun : ∃ r, demandPage s e v va = .ok r ∧ BlockEnd s e d f (s.vma e v) va l r :=
    ((h.demand_block hgot).mono (fun _ hc => hc hfit) fun _ hr => hr).exists_ok fun _ hc => hc
  obtain ⟨⟨ok, s'⟩, hdemand, hpg, hiff⟩ := hrun
  obtain ⟨rfl, hmap⟩ := hiff.2 hfit
  refine ⟨s', ?_, hmap, fun x hx hblock user write => ?_⟩
  · rw [allocPageAfterFault_eq h.area, if_neg h.anon, allocAnon_eq, hdemand]
    rfl
  · obtain ⟨w, b, -, -, -, ht⟩ := hmap _ hx hblock
    exact mmu_of_translate (hpg rfl) ht user write

end HugeSite

/-- **A fault in an area of huge pages maps the block that it gets**, around the address and with
the permissions of the area, exactly when the block fits. -/
theorem hugeFault_iff (s : Vm) (e d v f : ℕ) (va : BitVec 32) (live : List Block) (l : List ℕ)
    (m : Mm) (h : HugeSite s e d v va live l)
    (hgot : pageAlloc s.mm (allocZero ||| allocHuge) = .ok (some f, m)) :
    HugeInstalled s e d (s.vma e v) va f ↔ HugeFits s d f (s.vma e v) va l :=
  ⟨h.fits_of_installed hgot, h.installed_of_fits hgot⟩

/-! ### An area across three blocks -/

/-- An area of 4 MB behind the first page of a block. -/
def shiftedArea : Vma := ⟨.anon, 0x401000, 0x400000, pteU ||| pteW, none, 0, 0, 0, true⟩

/-- A machine with that area and no page table; the block at 1024 is free, and some frames below
it. -/
def shiftedVm : Vm := smallVm shiftedArea 0 0 0 0 1000 1048

theorem smallVm_findHugePage {a : Vma} {pde w₀ w₁ x : BitVec 32} {b n : ℕ} :
    findHugePage (smallVm a pde w₀ w₁ x b n).mm = some 1024 := by
  have hflags : ∀ i, ((smallVm a pde w₀ w₁ x b n).mm.pages i).pageFlags = smallFlags i :=
    fun _ => rfl
  have hfirst : scanBlock (smallVm a pde w₀ w₁ x b n).mm (0 * kb) kb 0 0 = 0 := by
    rcases scanBlock_eq (smallVm a pde w₀ w₁ x b n).mm (0 * kb) kb 0 0 with ⟨hall, -⟩ | ⟨-, hzero⟩
    · have hno := hall 5 (by decide)
      rw [PageInfo.has, hflags] at hno
      exact absurd hno (by decide)
    · exact hzero
  have hsecond : scanBlock (smallVm a pde w₀ w₁ x b n).mm (1 * kb) kb 0 0 = kb := by
    rcases scanBlock_eq (smallVm a pde w₀ w₁ x b n).mm (1 * kb) kb 0 0
      with ⟨-, hall⟩ | ⟨⟨k, -, hno⟩, -⟩
    · exact hall.trans (Nat.zero_add kb)
    · have hkb : kb = 1024 := rfl
      rw [PageInfo.has, hflags, smallFlags, if_neg (by omega)] at hno
      exact absurd hno (by decide)
  have hnp : (smallVm a pde w₀ w₁ x b n).mm.npages = 2048 := rfl
  rw [findHugePage, hnp, show 2048 / kb = 2 from rfl, scanBlocks, hfirst]
  rw [if_neg (by decide), scanBlocks, hsecond]
  exact if_pos rfl

theorem shiftedVm_site {va : BitVec 32} (hlow : va < uTop) (hcov : shiftedArea.covers va = true) :
    HugeSite shiftedVm 0 5 0 va smallLive (List.range' 1000 1048) := by
  have hdir : ∀ i, isPresent (shiftedVm.mm.word 5 i) = false := by
    intro i
    by_contra hP
    exact absurd (smallVm_dir (Bool.eq_true_of_not_eq_false hP)).2 (by decide)
  have hleaf : ∀ q, shiftedVm.mm.leaf 5 q = none := fun q => Mm.leaf_eq_none.2 (hdir _)
  refine ⟨smallVm_fault (by decide) (Or.inr (by decide)) (fun hP _ => absurd hP (by decide)) hlow
    hcov, smallVm_steady,
    ⟨by decide, by decide, by decide⟩, rfl, nofun, fun w b hw => ?_, fun q f b _ ht => ?_⟩
  · rw [hleaf] at hw
    cases hw
  · rw [Mm.translate, hleaf] at ht
    cases ht

theorem shiftedVm_alloc :
    ∃ m, pageAlloc shiftedVm.mm (allocZero ||| allocHuge) = .ok (some 1024, m) := by
  have hinv : AllocInv shiftedVm.mm smallLive (List.range' 1000 1048) :=
    smallVm_inv (by decide) (Or.inr (by decide))
  have hlist : shiftedVm.mm.pageFreeList ≠ none := by
    rw [show shiftedVm.mm.pageFreeList = some 1000 from rfl]
    exact nofun
  exact pageAlloc_found hinv smallVm_steady.2.1 (by decide) (by decide) hlist smallVm_findHugePage

/-- The last page of the area is the first one of a block. -/
theorem hugeFault_iff_last : HugeInstalled shiftedVm 0 5 shiftedArea 0x800000 1024 := by
  obtain ⟨m, halloc⟩ := shiftedVm_alloc
  refine (hugeFault_iff shiftedVm 0 5 0 1024 0x800000 smallLive _ m
    (shiftedVm_site (by decide) (by decide)) halloc).2
    ⟨by decide, fun hH => absurd hH (by decide), fun _ =>
      ⟨fun q hq hblock => ?_, by decide, Or.inr ⟨1000, by decide, ?_⟩⟩⟩
  · have hlt : q < vpn 0x401000 + shiftedArea.count := hq.2
    have hcount : vpn 0x401000 + shiftedArea.count = 2049 := by decide
    have hvpn : vpn 0x800000 = 2048 := by decide
    rw [hvpn] at hblock ⊢
    omega
  · rw [hugeBlock_has]
    omega

/-- **A fault at the first page of the area**: the second page is still absent. -/
theorem huge_fault_maps_one_page :
    ¬ ∀ (s : Vm) (e d v f : ℕ) (va : BitVec 32) (live : List Block) (l : List ℕ) (m : Mm),
      HugeSite s e d v va live l →
      (s.vma e v).len.toNat % (1024 * 4096) = 0 → pageAlloc s.mm (allocZero ||| allocHuge) =
        .ok (some f, m) →
        HugeInstalled s e d (s.vma e v) va f := by
  intro hall
  obtain ⟨m, halloc⟩ := shiftedVm_alloc
  have hsite : HugeSite shiftedVm 0 5 0 0x401000 smallLive (List.range' 1000 1048) :=
    shiftedVm_site (by decide) (by decide)
  obtain ⟨-, -, hfit⟩ :=
    hsite.fits_of_installed halloc (hall _ 0 5 0 1024 _ _ _ m hsite (by decide) halloc)
  exact absurd ((hfit (by decide)).1 1026 ⟨by decide, by decide⟩ (by decide)) (by decide)

end Jos
