/-
**The descriptors of an environment.**

An environment has `NVMA` descriptors of memory areas, each on one of two lists. The functions of
`kern/vma.c` move them by pointers: `vma_new` takes the head of the free list, `vma_remove_alloced`
unlinks the first descriptor in use that has a given address and length, and `vma_list_merge` goes
on along the link of a descriptor that it has just given back, so that it ends on the free list.
None of this loses a descriptor, puts one on both lists, or leaves anything behind in a free one.

Main definitions:

* `Jos.Vma.Clean` — a descriptor as `vma_new` expects it;
* `Jos.VmaInv` — the invariant of the two lists;
* `Jos.VmaOp`, `Jos.vmaStep` — the operations as a transition system.

Main results:

* `Jos.vmaNew_ends`, `Jos.vmaRemoveAlloced_ends`, `Jos.vmaSplitLookup_ends`,
  `Jos.vmaChangePerm_ends`, `Jos.vmaListMerge_ends` — every operation keeps the invariant;
* `Jos.vma_descriptors_kept` — **no descriptor is lost, duplicated or left dirty** in any run, and
  the check in `vma_new` does not fail.
-/

import JosKernel.LabelledRun
import JosKernel.Outcome
import JosKernel.Vma

set_option relaxedAutoImplicit false
set_option autoImplicit false

namespace Jos

open LabelledRun LinkedList Outcome

/-! ### The operations on pages -/

/-- The panic of `vma_new`. -/
def vmaNewPanic : Crash := .panic "[KERN]vma_new: vma consistency check failed"

section Pages

theorem decFreePages_passes (s : Mm) : Ends (· ≠ vmaNewPanic) (fun _ => True) (decFreePages s) :=
  ends_ite (fun _ => by simp [vmaNewPanic]) fun _ => True.intro

theorem kaddr_passes (npages : ℕ) (pa : BitVec 32) :
    Ends (· ≠ vmaNewPanic) (fun _ => True) (kaddr npages pa) :=
  ends_ite (fun _ => by simp [vmaNewPanic]) fun _ => True.intro

theorem memsetPage_passes (s : Mm) (pp : ℕ) (v : BitVec 8) :
    Ends (· ≠ vmaNewPanic) (fun _ => True) (memsetPage s pp v) := by
  rw [memsetPage, ends_bind]
  exact (kaddr_passes _ _).post fun _ _ => True.intro

theorem markPoison_passes (s : Mm) (flags : BitVec 32) (pp : ℕ) :
    Ends (· ≠ vmaNewPanic) (fun _ => True) (markPoison s flags pp) :=
  ends_ite (fun _ => ends_ite (fun _ => by simp [vmaNewPanic]) fun _ => True.intro) fun _ =>
    True.intro

theorem removeElement4MBPfl_passes (s : Mm) :
    Ends (· ≠ vmaNewPanic) (fun _ => True) (removeElement4MBPfl s) := by
  unfold removeElement4MBPfl
  split
  · simp [vmaNewPanic]
  · refine ends_ite (fun _ => True.intro) fun _ => ?_
    split
    · simp [vmaNewPanic]
    · exact True.intro
    · simp [vmaNewPanic]
    · rw [ends_bind]
      exact (decFreePages_passes _).post fun _ _ => True.intro

theorem removeHeadPfl_passes (s : Mm) :
    Ends (· ≠ vmaNewPanic) (fun _ => True) (removeHeadPfl s) := by
  unfold removeHeadPfl
  split
  · simp [vmaNewPanic]
  · refine ends_ite (fun _ => by simp [vmaNewPanic]) fun _ => ?_
    rw [ends_bind]
    exact (decFreePages_passes _).post fun _ _ => True.intro

theorem pageAllocFinish_passes (flags : BitVec 32) (pg0 : Option ℕ) (s : Mm) :
    Ends (· ≠ vmaNewPanic) (fun _ => True) (pageAllocFinish flags pg0 s) := by
  unfold pageAllocFinish
  split
  · simp [vmaNewPanic]
  · refine ends_ite (fun _ => by simp [vmaNewPanic]) fun _ => ?_
    simp only [ends_bind]
    refine (markPoison_passes _ _ _).post fun s _ => ?_
    split
    · rw [ends_bind]
      exact (memsetPage_passes _ _ _).post fun _ _ => True.intro
    · exact True.intro

/-- `page_alloc` for a single page. -/
theorem pageAlloc_passes (s : Mm) {flags : BitVec 32} (hh : flags &&& allocHuge = 0) :
    Ends (· ≠ vmaNewPanic) (fun _ => True) (pageAlloc s flags) := by
  unfold pageAlloc
  refine ends_ite (fun _ => True.intro) fun _ => ?_
  rw [if_neg (not_not_intro hh)]
  refine ends_ite (fun _ => ?_) fun _ => ?_
  · rw [ends_bind]
    exact (removeElement4MBPfl_passes s).post fun r _ => pageAllocFinish_passes _ _ _
  · rw [ends_bind]
    exact (removeHeadPfl_passes s).post fun r _ => pageAllocFinish_passes _ _ _

theorem clearPoison_passes (s : Mm) (pp : ℕ) :
    Ends (· ≠ vmaNewPanic) (fun _ => True) (clearPoison s pp) := by
  refine ends_ite (fun _ => ?_) fun _ => True.intro
  rw [ends_bind]
  exact (memsetPage_passes _ _ _).post fun _ _ => True.intro

theorem checkHugeRound_passes (s : Mm) (i : ℕ) :
    Ends (· ≠ vmaNewPanic) (fun _ => True) (checkHugeRound s i) := by
  unfold checkHugeRound
  refine ends_ite (fun _ => by simp [vmaNewPanic]) fun _ => ?_
  refine ends_ite (fun _ => by simp [vmaNewPanic]) fun _ => ?_
  exact ends_ite (fun _ => by simp [vmaNewPanic]) fun _ => True.intro

theorem pageFree_passes (s : Mm) (pp : ℕ) :
    Ends (· ≠ vmaNewPanic) (fun _ => True) (pageFree s pp) := by
  unfold pageFree
  refine ends_ite (fun _ => by simp [vmaNewPanic]) fun _ => ?_
  refine ends_ite (fun _ => by simp [vmaNewPanic]) fun _ => ?_
  refine ends_ite (fun _ => ?_) fun _ => ?_
  · rw [ends_bind]
    refine (ends_forM fun i _ => checkHugeRound_passes s i).post fun _ _ => ?_
    refine ends_foldlM_range' (P := fun _ _ => True) True.intro fun k _ s _ => ?_
    rw [freeHugeRound, ends_bind]
    exact (clearPoison_passes _ _).post fun _ _ => True.intro
  · rw [ends_bind]
    refine (clearPoison_passes s pp).post fun s _ => ?_
    exact ends_ite (fun _ => True.intro) fun _ => by simp [vmaNewPanic]

theorem lruRemoveEl_passes (s : Mm) (q : LruSide) (pp : ℕ) :
    Ends (· ≠ vmaNewPanic) (fun _ => True) (lruRemoveEl s q pp) := by
  unfold lruRemoveEl
  split
  · simp [vmaNewPanic]
  · exact True.intro
  · simp [vmaNewPanic]
  · exact True.intro

theorem lruRemoveElList_passes (s : Mm) (pp : ℕ) :
    Ends (· ≠ vmaNewPanic) (fun _ => True) (lruRemoveElList s pp) := by
  rw [lruRemoveElList, ends_bind]
  refine (lruRemoveEl_passes s .active pp).post fun r _ => ?_
  refine ends_ite (fun _ => True.intro) fun _ => ?_
  rw [ends_bind]
  refine (lruRemoveEl_passes r.2 .inactive pp).post fun r _ => ?_
  exact ends_ite (fun _ => True.intro) fun _ => True.intro

/-! ### The operations on page tables leave the descriptors alone -/

theorem walkEnd_passes (s : Vm) (pde : PtePtr) (va : BitVec 32) (huge : Bool) :
    Ends (· ≠ vmaNewPanic) (fun _ => True) (walkEnd s pde va huge) := by
  refine ends_ite (fun _ => True.intro) fun _ => ?_
  rw [ends_bind]
  exact (kaddr_passes _ _).post fun _ _ => True.intro

theorem pgdirFind_passes (s : Vm) (pgdir : Option ℕ) (va : BitVec 32) :
    Ends (· ≠ vmaNewPanic) (fun _ => True) (pgdirFind s pgdir va) := by
  unfold pgdirFind
  split
  · simp [vmaNewPanic]
  · refine ends_ite (fun _ => ?_) fun _ => True.intro
    rw [ends_bind]
    exact (walkEnd_passes _ _ _ _).post fun _ _ => True.intro

theorem pgdirWalk_passes (s : Vm) (pgdir : Option ℕ) (va : BitVec 32) (create : Create) :
    Ends (· ≠ vmaNewPanic) (fun r => r.2.envs = s.envs) (pgdirWalk s pgdir va create) := by
  unfold pgdirWalk
  split
  · simp [vmaNewPanic]
  · refine ends_ite (fun _ => ?_) fun _ => ?_
    · rw [ends_bind]
      exact (walkEnd_passes _ _ _ _).post fun _ _ => rfl
    · split
      · exact rfl
      · rw [ends_bind]
        refine (pageAlloc_passes s.mm (by decide)).post fun r _ => ?_
        obtain ⟨pg, mm⟩ := r
        cases pg with
        | none => exact rfl
        | some pg =>
            simp only [ends_bind]
            exact (walkEnd_passes _ _ _ _).post fun _ _ => rfl

theorem pageLookup_passes (s : Vm) (pgdir : Option ℕ) (va : BitVec 32) :
    Ends (· ≠ vmaNewPanic) (fun _ => True) (pageLookup s pgdir va) := by
  unfold pageLookup
  refine ends_ite (fun _ => by simp [vmaNewPanic]) fun _ => ?_
  simp only [ends_bind]
  refine (pgdirFind_passes s pgdir va).post fun pte _ => ?_
  cases pte with
  | none => exact True.intro
  | some pte =>
      rw [ends_bind]
      refine Ends.post (Q := fun _ => True) ?_ fun _ _ => True.intro
      exact ends_ite (fun _ => by simp [vmaNewPanic]) fun _ => True.intro

theorem releasePage_passes (s : Vm) (pp : ℕ) :
    Ends (· ≠ vmaNewPanic) (fun s' => s'.envs = s.envs) (releasePage s pp) := by
  rw [releasePage, ends_bind]
  refine (lruRemoveElList_passes s.mm pp).post fun r _ => ?_
  simp only [ends_bind]
  exact (pageFree_passes r.2 pp).post fun _ _ => rfl

theorem pageRemove_passes (s : Vm) (pgdir : Option ℕ) (va : BitVec 32) :
    Ends (· ≠ vmaNewPanic) (fun s' => s'.envs = s.envs) (pageRemove s pgdir va) := by
  unfold pageRemove
  refine ends_ite (fun _ => by simp [vmaNewPanic]) fun _ => ?_
  simp only [ends_bind]
  refine (pageLookup_passes s pgdir va).post fun pp _ => ?_
  cases pp with
  | none => exact rfl
  | some pp =>
      refine ends_ite (fun _ => by simp [vmaNewPanic]) fun _ => ?_
      have hrest : ∀ s' : Vm, s'.envs = s.envs →
          Ends (· ≠ vmaNewPanic) (fun s' => s'.envs = s.envs) (clearEntry s' pgdir va) := by
        intro s' hs'
        rw [clearEntry, ends_bind]
        refine (pgdirFind_passes s' pgdir va).post fun pte _ => ?_
        cases pte with
        | none => exact hs'
        | some pte => exact hs'
      refine ends_ite (fun _ => ?_) fun _ => hrest _ rfl
      rw [ends_bind]
      exact (releasePage_passes _ pp).post fun s' hs' => hrest s' hs'

theorem pageInsert_passes (s : Vm) (pgdir pp : Option ℕ) (va perm : BitVec 32) :
    Ends (· ≠ vmaNewPanic) (fun r => r.2.envs = s.envs) (pageInsert s pgdir pp va perm) := by
  unfold pageInsert
  split
  · simp [vmaNewPanic]
  · simp [vmaNewPanic]
  · rename_i dir pp
    refine ends_ite (fun _ => by simp [vmaNewPanic]) fun _ => ?_
    simp only [ends_bind]
    refine (pgdirWalk_passes s (some dir) va _).post fun r hr => ?_
    obtain ⟨pte, s₁⟩ := r
    cases pte with
    | none => exact hr
    | some pte =>
        refine ends_ite (fun _ => ?_) fun _ => ?_
        · rw [ends_bind]
          refine (pageRemove_passes s₁ (some dir) va).post fun s₂ h₂ => ?_
          rw [ends_pure]
          split
          · exact h₂.trans hr
          · exact h₂.trans hr
        · rw [pure_bind, ends_pure]
          split
          · exact hr
          · exact hr

/-- The descriptors and their lists. -/
def Space.lists (sp : Space) : (ℕ → Vma) × Option ℕ × Option ℕ :=
  (sp.vmas, sp.allocVmaList, sp.freeVmaList)

/-- The descriptors of every environment and their lists are the same. -/
def SameVmas (s s' : Vm) : Prop := ∀ e, (s'.envs e).lists = (s.envs e).lists

theorem SameVmas.of_envs {s s' : Vm} (h : s'.envs = s.envs) : SameVmas s s' := fun e => by rw [h]

theorem SameVmas.refl (s : Vm) : SameVmas s s := fun _ => rfl

theorem SameVmas.trans {s s' s'' : Vm} (h : SameVmas s s') (h' : SameVmas s' s'') :
    SameVmas s s'' :=
  fun e => (h' e).trans (h e)

theorem Vm.modSpace_eq_self {s : Vm} {e : ℕ} {f : Space → Space} (h : f (s.envs e) = s.envs e) :
    s.modSpace e f = s := by
  rw [Vm.modSpace, h, Function.update_eq_self]

theorem Vm.modSpace_self (s : Vm) (e : ℕ) (f : Space → Space) :
    (s.modSpace e f).envs e = f (s.envs e) :=
  Function.update_self ..

theorem Vm.modSpace_of_ne (s : Vm) {e e' : ℕ} (f : Space → Space) (h : e' ≠ e) :
    (s.modSpace e f).envs e' = s.envs e' := Function.update_of_ne h ..

theorem SameVmas.modSpace (s : Vm) (e : ℕ) {f : Space → Space}
    (hf : ∀ sp, (f sp).lists = sp.lists) :
    SameVmas s (s.modSpace e f) := by
  intro e'
  by_cases he : e' = e
  · subst he
    rw [Vm.modSpace_self, hf]
  · rw [Vm.modSpace_of_ne s f he]

theorem dropPages_ends (s : Vm) (e : ℕ) (n : BitVec 32) :
    Ends (· ≠ vmaNewPanic) (SameVmas s) (dropPages s e n) :=
  ends_ite (fun _ => by simp [vmaNewPanic]) fun _ => SameVmas.modSpace s e fun _ => rfl

theorem removePagesFrom_ends (e : ℕ) (va : BitVec 32) : ∀ (n i : ℕ) (s : Vm),
    Ends (· ≠ vmaNewPanic) (SameVmas s) (removePagesFrom e va n i s) := by
  intro n
  induction n with
  | zero => intro i s; exact SameVmas.refl s
  | succ n ih =>
      intro i s
      rw [removePagesFrom, ends_bind]
      refine (pgdirFind_passes s _ _).post fun pte _ => ?_
      cases pte with
      | none => exact SameVmas.refl s
      | some pte =>
          refine ends_ite (fun _ => ?_) fun _ => ih (i + 1) s
          rw [ends_bind]
          refine (pageRemove_passes s _ _).post fun s₁ h₁ => ?_
          rw [ends_bind]
          refine (dropPages_ends s₁ e _).post fun s₂ h₂ => ?_
          exact (ih (i + 1) s₂).post fun _ h => ((SameVmas.of_envs h₁).trans h₂).trans h

theorem changePermFrom_ends (e : ℕ) (va perm : BitVec 32) : ∀ (n i : ℕ) (s : Vm),
    Ends (· ≠ vmaNewPanic) (SameVmas s) (changePermFrom e va perm n i s) := by
  intro n
  induction n with
  | zero => intro i s; exact SameVmas.refl s
  | succ n ih =>
      intro i s
      rw [changePermFrom, ends_bind]
      refine (pgdirFind_passes s _ _).post fun pte _ => ?_
      cases pte with
      | none => exact SameVmas.refl s
      | some pte =>
          refine ends_ite (fun _ => ?_) fun _ => ih (i + 1) s
          rw [ends_bind]
          refine (pageLookup_passes s _ _).post fun pp _ => ?_
          cases pp with
          | none => exact SameVmas.refl s
          | some pp =>
              simp only [ends_bind]
              refine (pageInsert_passes s _ _ _ _).post fun r hr => ?_
              exact (ih (i + 1) r.2).post fun _ h => (SameVmas.of_envs hr).trans h

end Pages

/-! ### The invariant of the two lists -/

/-- A descriptor as `vma_new` expects it. -/
structure Vma.Clean (v : Vma) : Prop where
  type : v.type = .unused
  va : v.va = 0
  len : v.len = 0
  perm : v.perm = 0
  cpySrc : v.cpySrc = 0
  srcSz : v.srcSz = 0
  cpyDst : v.cpyDst = 0

/-- **The invariant of the descriptors**: those of `la` are in use, those of `lf` are free, and
nothing is left in a free one. -/
structure VmaInv (sp : Space) (la lf : List ℕ) : Prop where
  alloc : Chain sp.link sp.allocVmaList la
  free : Chain sp.link sp.freeVmaList lf
  parts : (la ++ lf).Perm (List.range nVma)
  clean : ∀ i ∈ lf, (sp.vmas i).Clean

/-- The lists are well formed. -/
def VmaOk (sp : Space) : Prop := ∃ la lf, VmaInv sp la lf

namespace VmaInv

variable {sp : Space} {la lf : List ℕ}

theorem nodup (h : VmaInv sp la lf) : (la ++ lf).Nodup := h.parts.nodup_iff.2 List.nodup_range

theorem length_eq (h : VmaInv sp la lf) : la.length + lf.length = nVma := by
  have hlen := h.parts.length_eq
  rwa [List.length_append, List.length_range] at hlen

theorem not_mem_free (h : VmaInv sp la lf) {i : ℕ} (hi : i ∈ la) : i ∉ lf := by
  intro hf
  exact (List.nodup_append.1 h.nodup).2.2 i hi i hf rfl

/-- The invariant only looks at the descriptors and their lists. -/
theorem congr (h : VmaInv sp la lf) {sp' : Space} (hl : sp'.lists = sp.lists) :
    VmaInv sp' la lf := by
  obtain ⟨pgdir, vmas, al, fr, pages⟩ := sp
  obtain ⟨pgdir', vmas', al', fr', pages'⟩ := sp'
  cases hl
  exact ⟨h.alloc, h.free, h.parts, h.clean⟩

end VmaInv

theorem VmaOk.congr {sp sp' : Space} (h : VmaOk sp) (hl : sp'.lists = sp.lists) : VmaOk sp' := by
  obtain ⟨la, lf, h⟩ := h
  exact ⟨la, lf, h.congr hl⟩

namespace Space

variable (sp : Space) (i : ℕ) (f : Vma → Vma)

theorem modVma_self : (sp.modVma i f).vmas i = f (sp.vmas i) := Function.update_self ..

variable {sp i f} in
theorem modVma_eq_self (h : f (sp.vmas i) = sp.vmas i) : sp.modVma i f = sp := by
  rw [Space.modVma, h, Function.update_eq_self]

variable {i} in
theorem modVma_of_ne {j : ℕ} (h : j ≠ i) : (sp.modVma i f).vmas j = sp.vmas j :=
  Function.update_of_ne h ..

theorem link_modVma : (sp.modVma i f).link = Function.update sp.link i (f (sp.vmas i)).vmaLink := by
  funext j
  by_cases hj : j = i
  · subst hj
    rw [Function.update_self, link, modVma_self]
  · rw [Function.update_of_ne hj, link, modVma_of_ne sp f hj]
    rfl

variable {f} in
/-- A change that keeps the link of the descriptor. -/
theorem link_modVma_of_eq (hf : ∀ v, (f v).vmaLink = v.vmaLink) :
    (sp.modVma i f).link = sp.link := by
  rw [link_modVma, hf]
  exact Function.update_eq_self ..

end Space

/-- A descriptor that is not free is changed. -/
theorem VmaInv.modVma {sp : Space} {la lf : List ℕ} (h : VmaInv sp la lf) {i : ℕ} (hi : i ∉ lf)
    {f : Vma → Vma} (hf : ∀ v, (f v).vmaLink = v.vmaLink) : VmaInv (sp.modVma i f) la lf := by
  refine ⟨?_, ?_, h.parts, ?_⟩
  · rw [sp.link_modVma_of_eq i hf]
    exact h.alloc
  · rw [sp.link_modVma_of_eq i hf]
    exact h.free
  · intro j hj
    rw [sp.modVma_of_ne f (by rintro rfl; exact hi hj)]
    exact h.clean j hj

/-! ### A descriptor comes into use -/

/-- **The descriptor `el` is on neither list.** -/
structure VmaHeld (sp : Space) (el : ℕ) (la lf : List ℕ) : Prop where
  alloc : Chain sp.link sp.allocVmaList la
  free : Chain sp.link sp.freeVmaList lf
  parts : (el :: la ++ lf).Perm (List.range nVma)
  clean : ∀ i ∈ lf, (sp.vmas i).Clean

theorem VmaHeld.nodup {sp : Space} {el : ℕ} {la lf : List ℕ} (h : VmaHeld sp el la lf) :
    (el :: la ++ lf).Nodup := h.parts.nodup_iff.2 List.nodup_range

theorem VmaHeld.not_mem {sp : Space} {el : ℕ} {la lf : List ℕ} (h : VmaHeld sp el la lf) :
    el ∉ la ∧ el ∉ lf := by
  have hnd := h.nodup
  rw [List.cons_append, List.nodup_cons, List.mem_append, not_or] at hnd
  exact hnd.1

/-- The descriptor that is held is filled in. -/
theorem VmaHeld.modVma {sp : Space} {el : ℕ} {la lf : List ℕ} (h : VmaHeld sp el la lf)
    {f : Vma → Vma} (hf : ∀ v, (f v).vmaLink = v.vmaLink) : VmaHeld (sp.modVma el f) el la lf := by
  refine ⟨?_, ?_, h.parts, ?_⟩
  · rw [sp.link_modVma_of_eq el hf]
    exact h.alloc
  · rw [sp.link_modVma_of_eq el hf]
    exact h.free
  · intro j hj
    rw [sp.modVma_of_ne f (by rintro rfl; exact h.not_mem.2 hj)]
    exact h.clean j hj

/-- `vma_remove_head`: the first free descriptor is taken off its list. -/
theorem vmaRemoveHead_held {sp : Space} {el : ℕ} {la lf : List ℕ} (h : VmaInv sp la (el :: lf)) :
    ∃ sp', vmaRemoveHead sp = (some el, sp') ∧ VmaHeld sp' el la lf ∧ (sp'.vmas el).Clean := by
  have hhead : sp.freeVmaList = some el := h.free.1
  have hnd := h.nodup
  refine ⟨_, by rw [vmaRemoveHead, hhead], ⟨?_, ?_, ?_, ?_⟩, ?_⟩
  · rw [Space.link_modVma]
    refine h.alloc.congr fun j hj => Function.update_of_ne ?_ _ _
    rintro rfl
    exact h.not_mem_free hj (by simp)
  · rw [Space.link_modVma]
    exact h.free.pop
  · refine List.Perm.trans ?_ h.parts
    exact List.perm_middle.symm
  · intro i hi
    have hne : i ≠ el := by
      rintro rfl
      exact (List.nodup_cons.1 h.free.nodup).1 hi
    rw [Space.modVma_of_ne _ _ hne]
    exact h.clean i (List.mem_cons_of_mem el hi)
  · rw [Space.modVma_self]
    obtain ⟨h1, h2, h3, h4, h5, h6, h7⟩ := h.clean el (by simp)
    exact ⟨h1, h2, h3, h4, h5, h6, h7⟩

/-- **`vma_insert`**: the descriptor is in use, in front of the first one with a higher address. -/
theorem vmaInsert_place {sp : Space} {el : ℕ} {la lf : List ℕ} (h : VmaHeld sp el la lf) :
    ∃ pre post sp', la = pre ++ post ∧ (∀ i ∈ pre, ¬ (sp.vmas el).va < (sp.vmas i).va) ∧
      (∀ i, post.head? = some i → (sp.vmas el).va < (sp.vmas i).va) ∧ vmaInsert sp el = .ok sp' ∧
      VmaInv sp' (pre ++ el :: post) lf := by
  obtain ⟨hla, hlf⟩ := h.not_mem
  have hlen : la.length ≤ nVma := by
    have hlen := h.parts.length_eq
    simp only [List.cons_append, List.length_cons, List.length_append, List.length_range] at hlen
    omega
  -- the free list does not see the links that change
  have hkeep : ∀ (sp' : Space) (pre post : List ℕ), la = pre ++ post →
      Chain sp'.link sp'.allocVmaList (pre ++ el :: post) → sp'.freeVmaList = sp.freeVmaList →
      (∀ j, j ≠ el → j ∉ la → sp'.vmas j = sp.vmas j) → VmaInv sp' (pre ++ el :: post) lf := by
    intro sp' pre post hsplit hchain hfree hrest
    have hperm : (pre ++ el :: post).Perm (el :: la) := by
      rw [hsplit]
      exact List.perm_middle
    have hout : ∀ j ∈ lf, sp'.vmas j = sp.vmas j := by
      intro j hj
      refine hrest j (by rintro rfl; exact hlf hj) fun hja => ?_
      exact (List.nodup_append.1 h.nodup).2.2 j (List.mem_cons_of_mem el hja) j hj rfl
    refine ⟨hchain, ?_, (hperm.append_right lf).trans h.parts, ?_⟩
    · rw [hfree]
      exact h.free.congr fun j hj => congrArg Vma.vmaLink (hout j hj)
    · intro j hj
      rw [hout j hj]
      exact h.clean j hj
  have hlink : ∀ p, (sp.modVma el fun v => { v with vmaLink := p }).link =
      Function.update sp.link el p :=
    fun p => sp.link_modVma el _
  have hrest : ∀ p, ∀ j ≠ el, (sp.modVma el fun v => { v with vmaLink := p }).vmas j = sp.vmas j :=
    fun p j hj => sp.modVma_of_ne _ hj
  unfold vmaInsert
  cases hhead : sp.allocVmaList with
  | none =>
      have hnil : la = [] := h.alloc.eq_nil_iff.2 hhead
      refine ⟨[], [], _, hnil, by simp, by simp, rfl, hkeep _ [] [] hnil ⟨rfl, ?_⟩ rfl fun j hj _ =>
        hrest none j hj⟩
      exact (congrFun (hlink none) el).trans (Function.update_self ..)
  | some hd =>
      have hchain := h.alloc
      rw [hhead] at hchain
      obtain ⟨la₁, hla₁, -⟩ := chain_some.1 hchain
      dsimp only
      by_cases hlt : (sp.vmas el).va < (sp.vmas hd).va
      · rw [if_pos hlt]
        refine ⟨[], la, _, rfl, by simp, ?_, rfl, ?_⟩
        · intro i hi
          rw [hla₁] at hi
          obtain rfl := Option.some.inj hi
          exact hlt
        · have hpush := h.alloc.push hla
          rw [hhead, ← hlink] at hpush
          exact hkeep _ [] la rfl hpush rfl fun j hj _ => hrest _ j hj
      · rw [if_neg hlt]
        obtain ⟨pre, post, hsplit, hpre, hpost, hb⟩ := @Chain.behind_place _ sp.link
          (fun i => decide ((sp.vmas el).va < (sp.vmas i).va)) la nVma hd (some hd) hchain hlen
        rw [hb]
        -- the first descriptor does not stop the loop
        have hne : pre ≠ [] := by
          rintro rfl
          rw [List.nil_append] at hsplit
          exact hlt (of_decide_eq_true (hpost hd (by rw [← hsplit, hla₁]; rfl)))
        obtain ⟨l, b, hcat⟩ := (List.eq_nil_or_concat pre).resolve_left hne
        rw [List.concat_eq_append] at hcat
        subst hcat
        refine ⟨l ++ [b], post, _, hsplit, fun i hi => of_decide_eq_false (hpre i hi),
          fun i hi => of_decide_eq_true (hpost i hi), rfl, ?_⟩
        have hmem : b ∈ la := by
          rw [hsplit]
          simp
        have hsplit' : la = l ++ b :: post := by
          rw [hsplit]
          simp
        rw [List.getLastD_concat]
        refine hkeep _ (l ++ [b]) post hsplit ?_ rfl ?_
        · have halloc := h.alloc
          rw [hsplit'] at halloc hla
          have hins := halloc.insertBehind hla
          rw [List.append_assoc]
          rwa [← hlink, ← Space.link_modVma _ b fun v => { v with vmaLink := some el }] at hins
        · intro j hj hjl
          have hjb : j ≠ b := by rintro rfl; exact hjl hmem
          rw [Space.modVma_of_ne _ _ hjb, hrest _ j hj]

/-- **`vma_insert`**: the descriptor is in use. -/
theorem vmaInsert_ends {sp : Space} {el : ℕ} {la lf : List ℕ} (h : VmaHeld sp el la lf) :
    Ends (fun _ => False) (fun sp' => ∃ la', VmaInv sp' la' lf ∧ la'.Perm (el :: la))
      (vmaInsert sp el) := by
  obtain ⟨pre, post, sp', rfl, -, -, hins, hinv⟩ := vmaInsert_place h
  rw [hins]
  exact ⟨_, hinv, List.perm_middle⟩

/-- **`vma_new`**: it only fails when it takes a descriptor off an empty list, and what is in use
stays in use. -/
theorem vmaNew_ends {sp : Space} {la lf : List ℕ} (h : VmaInv sp la lf) (va len : BitVec 32)
    (type : VmaType) (src filesize cpyDst perm : BitVec 32) :
    Ends (fun c => c = .nullDeref ∧ sp.freeVmaList = none)
      (fun r => ∃ la' lf', VmaInv r.2 la' lf' ∧ la ⊆ la')
      (vmaNew sp va len type src filesize cpyDst perm) := by
  unfold vmaNew
  refine ends_ite (fun _ => ⟨la, lf, h, List.Subset.refl la⟩) fun _ => ?_
  refine ends_ite (fun _ => ⟨la, lf, h, List.Subset.refl la⟩) fun _ => ?_
  cases lf with
  | nil =>
      have hnone : sp.freeVmaList = none := h.free
      rw [vmaRemoveHead, hnone]
      exact ⟨rfl, rfl⟩
  | cons el lf =>
      obtain ⟨sp', hsp', hheld, hclean⟩ := vmaRemoveHead_held h
      have hcheck : vmaConsistencyCheck (sp'.vmas el) .unused = true := by
        obtain ⟨h1, h2, h3, h4, h5, h6, h7⟩ := hclean
        simp [vmaConsistencyCheck, h1, h2, h3, h4, h5, h6, h7]
      rw [hsp']
      dsimp only
      rw [if_neg (not_not_intro hcheck), ends_bind]
      refine (vmaInsert_ends (hheld.modVma ?_)).mono (fun _ hc => hc.elim) ?_
      · intro v
        rfl
      · rintro sp'' ⟨la', hinv', hperm⟩
        exact ⟨la', lf, hinv', fun j hj => hperm.mem_iff.2 (List.mem_cons_of_mem el hj)⟩

/-! ### A descriptor is given back -/

/-- **The end of `vma_remove_alloced`**: the descriptor leaves the list, from behind the one before
it or, at the head, from behind itself, and becomes the first free one. -/
theorem VmaInv.unlink {sp : Space} {pre post lf : List ℕ} {i : ℕ}
    (h : VmaInv sp (pre ++ i :: post) lf) :
    VmaInv (vmaUnlink sp (pre.getLastD i) i) (pre ++ post) (i :: lf) := by
  have hnd := nodup_split h.alloc.nodup
  have hfree : i ∉ lf := h.not_mem_free (by simp)
  have hparts : ((pre ++ post) ++ i :: lf).Perm (List.range nVma) := by
    refine List.Perm.trans ?_ h.parts
    refine List.perm_middle.trans ?_
    exact (List.perm_middle.append_right lf).symm
  obtain ⟨sp₁, hsp₁⟩ : ∃ sp₁ : Space, sp₁ = (if sp.allocVmaList = some i then
    { sp with allocVmaList := sp.link i } else sp) := ⟨_, rfl⟩
  have hlink₁ : sp₁.link = sp.link := by rw [hsp₁]; split <;> rfl
  have hvmas₁ : sp₁.vmas = sp.vmas := by rw [hsp₁]; split <;> rfl
  have hfree₁ : sp₁.freeVmaList = sp.freeVmaList := by rw [hsp₁]; split <;> rfl
  obtain ⟨sp₂, hsp₂⟩ : ∃ sp₂ : Space, sp₂ = sp₁.modVma (pre.getLastD i) fun v =>
    { v with vmaLink := sp₁.link i } := ⟨_, rfl⟩
  have hlink₂ : sp₂.link = Function.update sp.link (pre.getLastD i) (sp.link i) := by
    rw [hsp₂, Space.link_modVma, hlink₁]
  have hdef : vmaUnlink sp (pre.getLastD i) i =
      { sp₂.modVma i fun v => Vma.unused sp₂.freeVmaList v.hps with
      freeVmaList := some i } := by
    rw [hsp₂, hsp₁]
    rfl
  have hlink : (vmaUnlink sp (pre.getLastD i) i).link =
      Function.update (Function.update sp.link (pre.getLastD i) (sp.link i)) i sp.freeVmaList := by
    have hfree₂ : sp₂.freeVmaList = sp.freeVmaList := by rw [hsp₂]; exact hfree₁
    rw [hdef, ← hlink₂, ← hfree₂]
    exact sp₂.link_modVma i fun v => Vma.unused sp₂.freeVmaList v.hps
  have hstart : (vmaUnlink sp (pre.getLastD i) i).allocVmaList = (pre ++ post).head? := by
    have halloc₂ : sp₂.allocVmaList = sp₁.allocVmaList := by rw [hsp₂]; rfl
    have halloc : (vmaUnlink sp (pre.getLastD i) i).allocVmaList = sp₁.allocVmaList := by
      rw [hdef]
      exact halloc₂
    rw [halloc, hsp₁]
    cases pre with
    | nil =>
        rw [if_pos h.alloc.1]
        exact h.alloc.2.head_eq
    | cons a pre =>
        have hne : ¬ sp.allocVmaList = some i := by
          rw [h.alloc.1, Option.some_inj]
          rintro rfl
          exact hnd.1 (by simp)
        rw [if_neg hne]
        exact h.alloc.1
  have hprev : ∀ j ∈ lf, j ≠ pre.getLastD i := by
    rintro j hj rfl
    have hmem : pre.getLastD i ∈ i :: pre := List.getLastD_mem_cons
    refine h.not_mem_free (i := pre.getLastD i) ?_ hj
    simp only [List.mem_cons, List.mem_append] at hmem ⊢
    tauto
  have hvmas : (vmaUnlink sp (pre.getLastD i) i).vmas =
      (sp₂.modVma i fun v => Vma.unused sp₂.freeVmaList v.hps).vmas := by rw [hdef]
  refine ⟨?_, ?_, hparts, ?_⟩
  · rw [hlink, hstart]
    exact h.alloc.remove
  · rw [hlink, hdef]
    refine Chain.push ?_ hfree
    exact h.free.congr fun j hj => Function.update_of_ne (hprev j hj) _ _
  · intro j hj
    rw [hvmas]
    rcases List.mem_cons.1 hj with rfl | hjf
    · rw [Space.modVma_self]
      exact ⟨rfl, rfl, rfl, rfl, rfl, rfl, rfl⟩
    · have hji : j ≠ i := by rintro rfl; exact hfree hjf
      rw [Space.modVma_of_ne _ _ hji, hsp₂, Space.modVma_of_ne _ _ (hprev j hjf), hvmas₁]
      exact h.clean j hjf

/-- **`vma_remove_alloced`** takes the first descriptor with the address and the length of `vmad`
out of the list; it only fails in the operations on pages. -/
theorem vmaRemoveAlloced_state {s : Vm} {e : ℕ} {la lf : List ℕ} (h : VmaInv (s.envs e) la lf)
    (vmad : ℕ) (destroyPages : Bool) :
    Ends (fun c => destroyPages = true ∧ c ≠ vmaNewPanic)
      (fun r => (vmad ∉ la ∧ r = (false, s)) ∨ ∃ pre x post s₁, la = pre ++ x :: post ∧ vmad ∉ pre ∧
        SameVmas s s₁ ∧
        (destroyPages = false → s₁ = s) ∧
          r = (true, s₁.modSpace e fun sp => vmaUnlink sp (pre.getLastD x) x))
      (vmaRemoveAlloced s e vmad destroyPages) := by
  have hlen : la.length ≤ nVma := by
    have hlen := h.length_eq
    omega
  have hself : (((s.envs e).vmas vmad).va == ((s.envs e).vmas vmad).va &&
      ((s.envs e).vmas vmad).len == ((s.envs e).vmas vmad).len) = true := by simp
  unfold vmaRemoveAlloced
  dsimp only
  rcases h.alloc.seek_cases hlen (fun i => ((s.envs e).vmas i).va == ((s.envs e).vmas vmad).va &&
    ((s.envs e).vmas i).len == ((s.envs e).vmas vmad).len) (s.envs e).allocVmaList with
    ⟨hnone, hseek⟩ | ⟨pre, x, post, rfl, hpre, -, hseek⟩
  · rw [hseek]
    refine Or.inl ⟨fun hmem => ?_, rfl⟩
    exact nomatch hself.symm.trans (hnone vmad hmem)
  · have hold : pre.getLast?.or (s.envs e).allocVmaList = some (pre.getLastD x) := by
      rcases List.eq_nil_or_concat pre with rfl | ⟨l, b, rfl⟩
      · exact h.alloc.1
      · simp
    have hmiss : vmad ∉ pre := fun hmem => nomatch hself.symm.trans (hpre vmad hmem)
    rw [hseek, hold]
    dsimp only
    cases destroyPages with
    | false => exact Or.inr ⟨pre, x, post, s, rfl, hmiss, SameVmas.refl s, fun _ => rfl, rfl⟩
    | true =>
        rw [if_pos rfl, ends_bind]
        refine (removePagesFrom_ends e _ _ 0 s).mono (fun c hc => ⟨rfl, hc⟩) fun s' hs' => ?_
        exact Or.inr ⟨pre, x, post, s', rfl, hmiss, hs', fun hc => (nomatch hc), rfl⟩

/-- The descriptor that `vma_remove_alloced` takes out is free afterwards. -/
theorem vmaRemoveAlloced_ends {s : Vm} {e : ℕ} {la lf : List ℕ} (h : VmaInv (s.envs e) la lf)
    (vmad : ℕ) (destroyPages : Bool) :
    Ends (fun c => destroyPages = true ∧ c ≠ vmaNewPanic)
      (fun r => r = (false, s) ∨ ∃ pre x post, la = pre ++ x :: post ∧ vmad ∉ pre ∧ r.1 = true ∧
        VmaInv (r.2.envs e) (pre ++ post) (x :: lf))
      (vmaRemoveAlloced s e vmad destroyPages) := by
  refine (vmaRemoveAlloced_state h vmad destroyPages).post ?_
  rintro r (⟨-, rfl⟩ | ⟨pre, x, post, s₁, rfl, hmiss, hs₁, -, rfl⟩)
  · exact Or.inl rfl
  · refine Or.inr ⟨pre, x, post, rfl, hmiss, rfl, ?_⟩
    change VmaInv ((s₁.modSpace e fun sp => vmaUnlink sp (pre.getLastD x) x).envs e) _ _
    rw [Vm.modSpace_self]
    exact (h.congr (hs₁ e)).unlink

/-! ### Merging -/

/-- The descriptor behind a descriptor is on the same list. -/
theorem mem_of_link {next : ℕ → Option ℕ} {p : Option ℕ} {l : List ℕ} {a b : ℕ} (h : Chain next p l)
    (ha : a ∈ l) (hb : next a = some b) : b ∈ l := by
  obtain ⟨pre, post, rfl⟩ := List.append_of_mem ha
  have hhead : post.head? = some b := h.next_of_append.symm.trans hb
  have hmem : b ∈ post := List.mem_of_mem_head? hhead
  simp [hmem]

/-- What follows a node of a list is its own chain. -/
theorem chain_behind {next : ℕ → Option ℕ} {p : Option ℕ} {l q : List ℕ} {a : ℕ}
    (h : Chain next p l) (ha : a ∈ l) (hq : Chain next (next a) q) : ∃ pre, l = pre ++ a :: q := by
  obtain ⟨pre, post, rfl⟩ := List.append_of_mem ha
  exact ⟨pre, by rw [(chain_append_cons.1 h).2.unique hq]⟩

/-- `vma_merge` lengthens the first descriptor, which does nothing to a free one. -/
theorem vmaMerge_lengthen {s : Vm} {e : ℕ} {la lf : List ℕ} {v₁ v₂ : ℕ}
    (h : VmaInv (s.envs e) la lf) (hboth : v₁ ∉ lf ∨ v₂ ∈ lf) :
    VmaInv ((s.modSpace e fun sp => sp.modVma v₁ fun v =>
      { v with len := v.len + (sp.vmas v₂).len }).envs e)
      la lf := by
  rw [Vm.modSpace_self]
  rcases hboth with hv₁ | hv₂
  · refine h.modVma hv₁ ?_
    intro v
    rfl
  · have hzero : ((s.envs e).vmas v₂).len = 0 := (h.clean v₂ hv₂).len
    refine h.congr ?_
    rw [hzero]
    have hsame : (s.envs e).modVma v₁ (fun v => { v with len := v.len + 0 }) = s.envs e := by
      have hid : (fun v : Vma => { v with len := v.len + 0 }) = id := by
        funext v
        simp
      rw [hid]
      exact congrArg (fun g => { s.envs e with vmas := g }) (Function.update_eq_self ..)
    rw [hsame]

/-- **`vma_merge`** of neighbours: either nothing is given back, or the walk can go on from the
second one, as far as it could before while it is still in use, or along the free list. -/
theorem vmaMerge_ends {s : Vm} {e : ℕ} {la lf q : List ℕ} {old i : ℕ} (h : VmaInv (s.envs e) la lf)
    (hside : old ∈ la ∧ i ∈ la ∨ old ∈ lf ∧ i ∈ lf)
    (hq : Chain (s.envs e).link ((s.envs e).link i) q) :
    Ends (fun _ => False)
      (fun r => VmaOk (r.2.envs e) ∧ (r.1 = true → ∃ la' lf' q', VmaInv (r.2.envs e) la' lf' ∧
        Chain (r.2.envs e).link ((r.2.envs e).link i) q' ∧
        (i ∈ la ∧ i ∈ la' ∧ q' = q ∨ i ∈ la ∧ i ∈ lf' ∧ q' = lf ∨ i ∈ lf ∧ i ∈ lf' ∧ q' = q)))
      (vmaMerge s e old i) := by
  have hboth : old ∉ lf ∨ i ∈ lf := by
    rcases hside with ⟨hold, -⟩ | ⟨-, hi⟩
    · exact Or.inl (h.not_mem_free hold)
    · exact Or.inr hi
  have h₁ := vmaMerge_lengthen h hboth
  have hq₁ : Chain ((s.modSpace e fun sp => sp.modVma old fun v =>
      { v with len := v.len + (sp.vmas i).len }).envs e).link
      (((s.modSpace e fun sp => sp.modVma old fun v =>
        { v with len := v.len + (sp.vmas i).len }).envs e).link i) q := by
    have hlink : ((s.envs e).modVma old fun v =>
        { v with len := v.len + ((s.envs e).vmas i).len }).link = (s.envs e).link :=
      Space.link_modVma_of_eq _ _ (by intro v; rfl)
    rw [Vm.modSpace_self, hlink]
    exact hq
  unfold vmaMerge
  refine (vmaRemoveAlloced_ends h₁ i false).mono (fun c hc => absurd hc.1 (by simp)) ?_
  rintro ⟨ok, s₂⟩ (hr | ⟨pre, x, post, hla, hmiss, -, h₂⟩)
  · cases hr
    exact ⟨⟨la, lf, h₁⟩, fun hok => absurd hok (by simp)⟩
  · refine ⟨⟨_, _, h₂⟩, fun _ => ?_⟩
    rcases hside with ⟨-, hi⟩ | ⟨-, hi⟩
    · -- the descriptor given back is `i` or comes before it
      have hi' := hi
      rw [hla, List.mem_append, List.mem_cons] at hi'
      rcases hi' with hi' | rfl | hi'
      · exact absurd hi' hmiss
      · exact ⟨_, _, lf, h₂, h₂.free.2, Or.inr (Or.inl ⟨hi, by simp, rfl⟩)⟩
      · obtain ⟨a, b, rfl⟩ := List.append_of_mem hi'
        have hbq : b = q := by
          have hsuf := h₁.alloc
          rw [hla, ← List.cons_append, ← List.append_assoc] at hsuf
          exact (chain_append_cons.1 hsuf).2.unique hq₁
        have hchain := h₂.alloc
        rw [← List.append_assoc] at hchain
        refine ⟨_, _, q, h₂, ?_, Or.inl ⟨hi, by simp, rfl⟩⟩
        rw [← hbq]
        exact (chain_append_cons.1 hchain).2
    · obtain ⟨a, ha⟩ := chain_behind h₁.free hi hq₁
      have hchain := h₂.free
      rw [ha, ← List.cons_append] at hchain
      exact ⟨_, _, q, h₂, (chain_append_cons.1 hchain).2,
        Or.inr (Or.inr ⟨hi, List.mem_cons_of_mem x hi, rfl⟩)⟩

/-- **A rule for the loop of `vma_list_merge`**: what `vma_merge` of neighbours keeps. The walk is
on the list of the descriptors in use, or, once it has followed the link of a descriptor it has
given back, on the free list; it does not come back, so that `2 NVMA` rounds are enough. -/
theorem mergeFrom_rule {e : ℕ} {P : Space → Prop}
    (hmerge : ∀ (s : Vm) (la lf : List ℕ) (old i : ℕ), VmaInv (s.envs e) la lf →
      (old ∈ la ∧ i ∈ la ∨ old ∈ lf ∧ i ∈ lf) →
      (s.vma e old).mergesWith (s.vma e i) = true → P (s.envs e) →
      Ends (fun _ => True) (fun r => P (r.2.envs e)) (vmaMerge s e old i)) :
    ∀ (fuel : ℕ) (s : Vm) (la lf q : List ℕ) (old : ℕ), VmaInv (s.envs e) la lf → P (s.envs e) →
      Chain (s.envs e).link ((s.envs e).link old) q →
      (old ∈ la ∧ q.length + nVma ≤ fuel ∨ old ∈ lf ∧ q.length ≤ fuel) →
      Ends (fun _ => False) (fun r => VmaOk (r.2.envs e) ∧ P (r.2.envs e))
        (mergeFrom e fuel old ((s.envs e).link old) s) := by
  intro fuel
  induction fuel with
  | zero =>
      intro s la lf q old h hP hq hfuel
      have hnil : q = [] := by
        rcases hfuel with ⟨-, hfuel⟩ | ⟨-, hfuel⟩
        · simp only [nVma] at hfuel
          omega
        · exact List.eq_nil_of_length_eq_zero (Nat.le_zero.1 hfuel)
      rw [hnil, chain_nil] at hq
      rw [hq]
      exact ⟨⟨la, lf, h⟩, hP⟩
  | succ fuel ih =>
      intro s la lf q old h hP hq hfuel
      cases q with
      | nil =>
          rw [chain_nil] at hq
          rw [hq]
          exact ⟨⟨la, lf, h⟩, hP⟩
      | cons i q =>
          obtain ⟨hi, hq⟩ := hq
          rw [hi, mergeFrom]
          have hside : old ∈ la ∧ i ∈ la ∧ q.length + nVma ≤ fuel ∨ old ∈ lf ∧ i ∈ lf ∧
              q.length ≤ fuel := by
            rcases hfuel with ⟨hold, hfuel⟩ | ⟨hold, hfuel⟩
            · exact Or.inl ⟨hold, mem_of_link h.alloc hold hi, by simp at hfuel; omega⟩
            · exact Or.inr ⟨hold, mem_of_link h.free hold hi, by simp at hfuel; omega⟩
          refine ends_ite (fun hjoin => ?_) fun _ => ?_
          · rw [ends_bind]
            have hlists : old ∈ la ∧ i ∈ la ∨ old ∈ lf ∧ i ∈ lf :=
              hside.imp (fun hs => ⟨hs.1, hs.2.1⟩) fun hs => ⟨hs.1, hs.2.1⟩
            refine Ends.mono ((vmaMerge_ends h hlists hq).and
              (hmerge s la lf old i h hlists hjoin hP)) (fun _ hc => hc.1) ?_
            rintro ⟨ok, s'⟩ ⟨⟨hok, hgo⟩, hP'⟩
            refine ends_ite (fun hok => ?_) fun _ => ⟨hok, hP'⟩
            obtain ⟨la', lf', q', h', hq', hpos⟩ := hgo hok
            refine ih s' la' lf' q' i h' hP' hq' ?_
            have hlen := h.length_eq
            rcases hside with ⟨-, hila, hfuel⟩ | ⟨-, hilf, hfuel⟩
            · rcases hpos with ⟨-, hi', rfl⟩ | ⟨-, hi', rfl⟩ | ⟨hilf, -, -⟩
              · exact Or.inl ⟨hi', hfuel⟩
              · exact Or.inr ⟨hi', by omega⟩
              · exact absurd hilf (h.not_mem_free hila)
            · rcases hpos with ⟨hila, -, -⟩ | ⟨hila, -, -⟩ | ⟨-, hi', rfl⟩
              · exact absurd hilf (h.not_mem_free hila)
              · exact absurd hilf (h.not_mem_free hila)
              · exact Or.inr ⟨hi', hfuel⟩
          · refine ih s la lf q i h hP hq ?_
            exact hside.imp (fun hs => hs.2) fun hs => hs.2

/-- **A rule for `vma_list_merge`.** -/
theorem vmaListMerge_rule {s : Vm} {e : ℕ} {P : Space → Prop}
    (hmerge : ∀ (s : Vm) (la lf : List ℕ) (old i : ℕ), VmaInv (s.envs e) la lf →
      (old ∈ la ∧ i ∈ la ∨ old ∈ lf ∧ i ∈ lf) →
      (s.vma e old).mergesWith (s.vma e i) = true → P (s.envs e) →
      Ends (fun _ => True) (fun r => P (r.2.envs e)) (vmaMerge s e old i))
    (h : VmaOk (s.envs e)) (hP : P (s.envs e)) :
    Ends (fun _ => False) (fun r => VmaOk (r.2.envs e) ∧ P (r.2.envs e)) (vmaListMerge s e) := by
  obtain ⟨la, lf, hinv⟩ := h
  unfold vmaListMerge
  split
  · exact ⟨⟨la, lf, hinv⟩, hP⟩
  · rename_i old hold
    have hchain := hinv.alloc
    rw [hold] at hchain
    obtain ⟨q, rfl, hq⟩ := chain_some.1 hchain
    have hlen := hinv.length_eq
    refine mergeFrom_rule hmerge (2 * nVma) s _ lf q old hinv hP hq (Or.inl ⟨by simp, ?_⟩)
    simp at hlen
    omega

/-- **`vma_list_merge`** ends. -/
theorem vmaListMerge_ends {s : Vm} {e : ℕ} (h : VmaOk (s.envs e)) :
    Ends (fun _ => False) (fun r => VmaOk (r.2.envs e)) (vmaListMerge s e) :=
  (vmaListMerge_rule (P := fun _ => True) (fun s _ _ old i _ _ _ _ => Ends.of_forall
    (fun _ => True.intro) (vmaMerge s e old i)) h
    True.intro).post fun _ hr => hr.1

/-! ### Splitting and changing permissions -/

/-- A descriptor in use is changed. -/
theorem VmaInv.modSpace {s : Vm} {e : ℕ} {la lf : List ℕ} (h : VmaInv (s.envs e) la lf) {i : ℕ}
    (hi : i ∈ la) {f : Vma → Vma} (hf : ∀ v, (f v).vmaLink = v.vmaLink) :
    VmaInv ((s.modSpace e fun sp => sp.modVma i f).envs e) la lf := by
  rw [Vm.modSpace_self]
  exact h.modVma (h.not_mem_free hi) hf

theorem vmaSplitOff_ends {s : Vm} {e : ℕ} {la lf : List ℕ} (h : VmaInv (s.envs e) la lf)
    (va len : BitVec 32) (type : VmaType) (perm : BitVec 32) :
    Ends (fun c => c = .nullDeref) (fun s' => ∃ la' lf', VmaInv (s'.envs e) la' lf' ∧ la ⊆ la')
      (vmaSplitOff s e va len type perm) := by
  rw [vmaSplitOff, ends_bind, Vm.onSpace, ends_bind]
  refine (vmaNew_ends h va len type 0 0 0 perm).mono (fun c hc => hc.1) ?_
  rintro ⟨r, sp⟩ ⟨la', lf', h', hsub⟩
  refine ⟨la', lf', ?_, hsub⟩
  rw [Vm.modSpace_self]
  exact h'

/-- The two parts of an area that are not in the range that is split out. -/
theorem vmaSplitParts_ends {s : Vm} {e vmad : ℕ} {la lf : List ℕ} (h : VmaInv (s.envs e) la lf)
    {vmaRemove : Bool} (hv : vmaRemove = false → vmad ∈ la) (old : Vma) (va size : BitVec 32) :
    Ends (fun c => c = .nullDeref) (fun s' => VmaOk (s'.envs e))
      (vmaSplitParts s e vmad old va size vmaRemove) := by
  have hmod : ∀ (s' : Vm) (la' lf' : List ℕ), VmaInv (s'.envs e) la' lf' → la ⊆ la' →
      ∀ f : Vma → Vma,
      (∀ v, (f v).vmaLink = v.vmaLink) →
      VmaInv ((if vmaRemove then s' else s'.modSpace e fun sp => sp.modVma vmad f).envs e)
        la' lf' := by
    intro s' la' lf' h' hsub f hf
    cases hr : vmaRemove with
    | true => exact h'
    | false => exact h'.modSpace (hsub (hv hr)) hf
  have hsecond : ∀ (s' : Vm) (la' lf' : List ℕ), VmaInv (s'.envs e) la' lf' → la ⊆ la' →
      Ends (fun c => c = .nullDeref) (fun s' => VmaOk (s'.envs e))
        (if va + size < old.va + old.len then
          let sizeTem := old.len - (va + size - old.va)
          let s := if vmaRemove then s' else
            s'.modSpace e fun sp => sp.modVma vmad fun v => { v with len := v.len - sizeTem }
          vmaSplitOff s e (va + size) sizeTem old.type old.perm
        else pure s') := by
    intro s' la' lf' h' hsub
    refine ends_ite (fun _ => ?_) fun _ => ⟨la', lf', h'⟩
    refine (vmaSplitOff_ends (hmod s' la' lf' h' hsub _ ?_) _ _ _ _).post ?_
    · intro v
      rfl
    · rintro s'' ⟨la'', lf'', h'', -⟩
      exact ⟨la'', lf'', h''⟩
  unfold vmaSplitParts
  refine ends_ite (fun _ => ?_) fun _ => hsecond s la lf h (List.Subset.refl la)
  rw [ends_bind]
  refine (vmaSplitOff_ends (hmod s la lf h (List.Subset.refl la) _ ?_) _ _ _ _).post ?_
  · intro v
    rfl
  · rintro s' ⟨la', lf', h', hsub⟩
    exact hsecond s' la' lf' h' hsub

/-- `vma_lookup` finds descriptors in use. -/
theorem vmaLookup_ends {sp : Space} {la lf : List ℕ} (h : VmaInv sp la lf) (va : BitVec 32) :
    Ends (fun _ => False) (fun r => ∀ i, r = some i → i ∈ la) (vmaLookup sp va) := by
  have hlen : la.length ≤ nVma := by
    have hlen := h.length_eq
    omega
  unfold vmaLookup
  rcases h.alloc.seek_cases hlen (fun i => (sp.vmas i).covers va) none with
    ⟨-, hseek⟩ | ⟨pre, x, post, rfl, -, -, hseek⟩
  · rw [hseek]
    rintro i ⟨⟩
  · rw [hseek]
    rintro i ⟨⟩
    simp

/-- **`vma_split_lookup`** in both modes. -/
theorem vmaSplitLookup_ends {s : Vm} {e : ℕ} (h : VmaOk (s.envs e)) (va size : BitVec 32)
    (vmaRemove : Bool) :
    Ends (fun c => c ≠ vmaNewPanic ∧ (c = .diverges → vmaRemove = true))
      (fun r => VmaOk (r.2.envs e))
      (vmaSplitLookup s e va size vmaRemove) := by
  obtain ⟨la, lf, h⟩ := h
  have hparts : ∀ (s' : Vm) (la' lf' : List ℕ) (i : ℕ), VmaInv (s'.envs e) la' lf' →
      (vmaRemove = false → i ∈ la') → Ends (fun c => c ≠ vmaNewPanic ∧
        (c = .diverges → vmaRemove = true))
        (fun r => VmaOk (r.2.envs e)) (do
          let s ← vmaSplitParts s' e i (s.vma e i) va size vmaRemove
          pure (some i, s)) := by
    intro s' la' lf' i h' hi
    rw [ends_bind]
    refine (vmaSplitParts_ends h' hi _ va size).mono ?_ fun _ hok => hok
    rintro c rfl
    simp [vmaNewPanic]
  rw [vmaSplitLookup, ends_bind]
  refine (vmaLookup_ends h va).mono (fun _ hc => hc.elim) ?_
  rintro (_ | i) hi
  · exact ⟨la, lf, h⟩
  · refine ends_ite (fun _ => by simp [vmaNewPanic]) fun _ => ?_
    refine ends_ite (fun _ => ⟨la, lf, h⟩) fun _ => ?_
    refine ends_ite (fun _ => ⟨la, lf, h⟩) fun _ => ?_
    refine ends_ite (fun _ => ⟨la, lf, h⟩) fun _ => ?_
    cases vmaRemove with
    | false => exact hparts s la lf i h fun _ => hi i rfl
    | true =>
        rw [if_pos rfl, ends_bind]
        refine (vmaRemoveAlloced_ends h i true).mono (fun c hc => ⟨hc.2, fun _ => rfl⟩) ?_
        rintro ⟨ok, s'⟩ (hr | ⟨pre, x, post, -, -, -, h'⟩)
        · cases hr
          exact hparts s la lf i h (by simp)
        · exact hparts s' _ _ i h' (by simp)

/-- **`vma_change_perm`** of an area in use. -/
theorem vmaChangePerm_ends {s : Vm} {e v : ℕ} {la lf : List ℕ} (h : VmaInv (s.envs e) la lf)
    (hv : v ∈ la) (perm : BitVec 32) :
    Ends (fun c => c ≠ vmaNewPanic) (fun s' => VmaInv (s'.envs e) la lf)
      (vmaChangePerm s e v perm) := by
  have h₁ : VmaInv ((s.modSpace e fun sp => sp.modVma v fun v => { v with perm := perm }).envs e) la
      lf :=
    h.modSpace hv (by intro v; rfl)
  exact (changePermFrom_ends e _ perm _ 0 _).post fun s' hs' => h₁.congr (hs' e)

/-! ### Runs -/

/-- A call of an operation on the descriptors of an environment. -/
inductive VmaOp
  | new (va len : BitVec 32) (type : VmaType) (src filesize cpyDst perm : BitVec 32)
  | removeAlloced (vmad : ℕ) (destroyPages : Bool)
  | splitLookup (va size : BitVec 32) (vmaRemove : Bool)
  | changePerm (v : ℕ) (perm : BitVec 32)
  | listMerge
  deriving DecidableEq, Repr

/-- The call. -/
def vmaExec (e : ℕ) (s : Vm) : VmaOp → Except Crash Vm
  | .new va len type src filesize cpyDst perm => do
      let (_, s) ← s.onSpace e fun sp => vmaNew sp va len type src filesize cpyDst perm
      pure s
  | .removeAlloced vmad destroyPages => do
      let (_, s) ← vmaRemoveAlloced s e vmad destroyPages
      pure s
  | .splitLookup va size vmaRemove => do
      let (_, s) ← vmaSplitLookup s e va size vmaRemove
      pure s
  | .changePerm v perm => vmaChangePerm s e v perm
  | .listMerge => do
      let (_, s) ← vmaListMerge s e
      pure s

/-- The area whose permissions are changed is one in use; the callers have it from
`vma_split_lookup`. -/
def VmaOp.Allowed (e : ℕ) (s : Vm) : VmaOp → Prop
  | .changePerm v _ => Visits (s.envs e).link (s.envs e).allocVmaList v
  | _ => True

/-- The operations that walk the page tables. -/
def VmaOp.TouchesPages : VmaOp → Prop
  | .removeAlloced _ destroyPages => destroyPages = true
  | .splitLookup _ _ vmaRemove => vmaRemove = true
  | .changePerm _ _ => True
  | _ => False

/-- One operation that returns. -/
def vmaStep (e : ℕ) (s : Vm) (op : VmaOp) (s' : Vm) : Prop :=
  op.Allowed e s ∧ vmaExec e s op = Except.ok s'

/-- **Every operation keeps the lists**, and none ends in the panic of `vma_new`. -/
theorem vmaExec_ends {e : ℕ} {s : Vm} (h : VmaOk (s.envs e)) {op : VmaOp} (hop : op.Allowed e s) :
    Ends (fun c => c ≠ vmaNewPanic ∧ (c = .diverges → op.TouchesPages))
      (fun s' => VmaOk (s'.envs e))
      (vmaExec e s op) := by
  obtain ⟨la, lf, hinv⟩ := h
  cases op with
  | new va len type src filesize cpyDst perm =>
      rw [vmaExec, ends_bind, Vm.onSpace, ends_bind]
      refine (vmaNew_ends hinv va len type src filesize cpyDst perm).mono ?_ ?_
      · rintro c ⟨rfl, -⟩
        simp [vmaNewPanic]
      · rintro ⟨r, sp⟩ ⟨la', lf', h', -⟩
        refine ⟨la', lf', ?_⟩
        rw [Vm.modSpace_self]
        exact h'
  | removeAlloced vmad destroyPages =>
      rw [vmaExec, ends_bind]
      refine (vmaRemoveAlloced_ends hinv vmad destroyPages).mono
        (fun c hc => ⟨hc.2, fun _ => hc.1⟩) ?_
      rintro ⟨r, s'⟩ (hr | ⟨pre, x, post, -, -, -, h'⟩)
      · cases hr
        exact ⟨la, lf, hinv⟩
      · exact ⟨_, _, h'⟩
  | splitLookup va size vmaRemove =>
      rw [vmaExec, ends_bind]
      exact (vmaSplitLookup_ends ⟨la, lf, hinv⟩ va size vmaRemove).mono (fun _ hc => hc) fun _ h' =>
        h'
  | changePerm v perm =>
      have hv : v ∈ la := (hinv.alloc.visits_iff).1 hop
      refine (vmaChangePerm_ends hinv hv perm).mono (fun c hc => ⟨hc, fun _ => True.intro⟩) ?_
      exact fun _ h' => ⟨la, lf, h'⟩
  | listMerge =>
      rw [vmaExec, ends_bind]
      exact (vmaListMerge_ends ⟨la, lf, hinv⟩).mono (fun _ hc => hc.elim) fun _ h' => h'

/-- The descriptors of `l` are free, and none is in use. -/
structure AllFree (sp : Space) (l : List ℕ) : Prop where
  free : Chain sp.link sp.freeVmaList l
  alloc : sp.allocVmaList = none
  clean : ∀ i ∈ l, (sp.vmas i).Clean

/-- One round of `vma_proc_init`. -/
theorem AllFree.round {sp : Space} {l : List ℕ} (h : AllFree sp l) {i : ℕ} (hi : i ∉ l) :
    AllFree { sp.modVma i (fun _ => Vma.unused sp.freeVmaList false) with freeVmaList := some i }
      (i :: l) := by
  refine ⟨?_, h.alloc, ?_⟩
  · have hlink : (sp.modVma i fun _ => Vma.unused sp.freeVmaList false).link =
        Function.update sp.link i sp.freeVmaList := sp.link_modVma i _
    have hpush := h.free.push hi
    rw [← hlink] at hpush
    exact hpush
  · intro j hj
    change ((sp.modVma i fun _ => Vma.unused sp.freeVmaList false).vmas j).Clean
    by_cases hji : j = i
    · subst hji
      rw [Space.modVma_self]
      exact ⟨rfl, rfl, rfl, rfl, rfl, rfl, rfl⟩
    · rw [Space.modVma_of_ne _ _ hji]
      exact h.clean j (by simpa [hji] using hj)

/-- **`vma_proc_init`**: every descriptor is free. -/
theorem vmaProcInit_inv (sp : Space) : VmaInv (vmaProcInit sp) [] (List.range nVma) := by
  have hloop : ∀ l : List ℕ, l.Nodup → AllFree (l.foldr (fun i (sp : Space) =>
      { sp.modVma i (fun _ => Vma.unused sp.freeVmaList false) with freeVmaList := some i })
      { sp with freeVmaList := none, allocVmaList := none }) l := by
    intro l
    induction l with
    | nil => intro _; exact ⟨rfl, rfl, by simp⟩
    | cons i l ih =>
        intro hnd
        obtain ⟨hi, hnd⟩ := List.nodup_cons.1 hnd
        exact (ih hnd).round hi
  have h := hloop (List.range nVma) List.nodup_range
  rw [vmaProcInit, List.foldl_reverse]
  exact ⟨h.alloc, h.free, List.Perm.refl _, h.clean⟩

theorem vmaProcInit_ok (sp : Space) : VmaOk (vmaProcInit sp) := ⟨_, _, vmaProcInit_inv sp⟩

theorem vmaOk_step {e : ℕ} (s : Vm) (op : VmaOp) (s' : Vm) (h : VmaOk (s.envs e)) (_ : True)
    (hst : vmaStep e s op s') : VmaOk (s'.envs e) :=
  (vmaExec_ends h hst.1).of_ok hst.2

/-- **No descriptor is lost, duplicated or left dirty**, and the check in `vma_new` does not
fail. -/
theorem vma_descriptors_kept {e : ℕ} {s₀ s : Vm} {tr : List (Vm × VmaOp)}
    (hr : Run (vmaStep e) (s₀.modSpace e vmaProcInit) tr s) :
    (∃ la lf, Chain (s.envs e).link (s.envs e).allocVmaList la ∧
      Chain (s.envs e).link (s.envs e).freeVmaList lf ∧
      (la ++ lf).Perm (List.range nVma) ∧ (la ++ lf).Nodup ∧ ∀ i ∈ lf, ((s.envs e).vmas i).Clean) ∧
    ∀ op : VmaOp, op.Allowed e s →
      Ends (fun c => c ≠ vmaNewPanic ∧ (c = .diverges → op.TouchesPages)) (fun _ => True)
        (vmaExec e s op) := by
  have hstart : VmaOk ((s₀.modSpace e vmaProcInit).envs e) := by
    rw [Vm.modSpace_self]
    exact vmaProcInit_ok _
  have h : VmaOk (s.envs e) :=
    @Run.invariant _ _ _ _ (fun s => VmaOk (s.envs e)) vmaOk_step _ _ _ hr hstart (Meets.trivial tr)
  refine ⟨?_, fun op hop => (vmaExec_ends h hop).post fun _ _ => True.intro⟩
  obtain ⟨la, lf, hinv⟩ := h
  exact ⟨la, lf, hinv.alloc, hinv.free, hinv.parts, hinv.nodup, hinv.clean⟩

/-- A machine without environments. -/
def Vm.blank : Vm where
  mm := Mm.boot 8 frames_eight false fun _ _ => 0
  envs := fun _ => ⟨none, fun _ => Vma.unused none false, none, none, 0⟩
  kernPgdir := fun _ => 0
  image := fun _ => 0
  envFrame := fun _ => 0
  written := []

/-- The same machine with an empty page directory in the frame 1. -/
def Vm.mapless : Vm :=
  { Vm.blank with envs := fun _ => ⟨some 1, fun _ => Vma.unused none false, none, none, 0⟩ }

/-- An operation that changes the permissions of the first area only. -/
def changesFirst (s : Vm) : VmaOp → Bool
  | .changePerm v _ => (s.envs 0).allocVmaList = some v
  | _ => true

theorem allowed_of_changesFirst {s : Vm} {op : VmaOp} (h : changesFirst s op = true) :
    op.Allowed 0 s := by
  cases op with
  | changePerm v perm =>
      rw [VmaOp.Allowed, of_decide_eq_true h]
      exact Visits.here v
  | _ => exact True.intro

/-- An area is created and split in three, the first part gets other permissions, the other two are
merged, the first one is removed with its pages, and one more area is created. -/
def areaLife : List VmaOp :=
  [.new 0x800000 0x4000 .anon 0 0 0 6, .splitLookup 0x801000 0x1000 false, .changePerm 1 4,
   .listMerge, .removeAlloced 1 true, .new 0x900000 0x4000 .anon 0 0 0 6]

/-- All operations in a new environment. -/
theorem vma_descriptors_kept_life :
    ∃ tr s, Run (vmaStep 0) (Vm.mapless.modSpace 0 vmaProcInit) tr s ∧
      tr.map Prod.snd = areaLife ∧
      ∃ la lf, Chain (s.envs 0).link (s.envs 0).allocVmaList la ∧
        (la ++ lf).Perm (List.range nVma) ∧ ∀ i ∈ lf, ((s.envs 0).vmas i).Clean := by
  have hsome : (execAll (fun s op => if changesFirst s op then (vmaExec 0 s op).toOption else none)
      (Vm.mapless.modSpace 0 vmaProcInit) areaLife).isSome = true := by decide +kernel
  obtain ⟨s, hs⟩ := Option.isSome_iff_exists.1 hsome
  obtain ⟨tr, hexec, htr⟩ := run_of_execAll hs
  have hrun : Run (vmaStep 0) (Vm.mapless.modSpace 0 vmaProcInit) tr s := by
    refine hexec.mono fun t op u hst => ?_
    split at hst
    · rename_i hfirst
      exact ⟨allowed_of_changesFirst hfirst, ok_of_toOption hst⟩
    · cases hst
  obtain ⟨⟨la, lf, hla, -, hperm, -, hclean⟩, -⟩ := vma_descriptors_kept hrun
  exact ⟨tr, s, hrun, htr, la, lf, hla, hperm, hclean⟩

end Jos
