/-
**What a permission of a user program can do to a page table.**

The permission of `sys_vma_create` and `sys_vma_protect` goes into the descriptor of the area as it
comes, and `page_insert` and `page_dedup` or it into entries. An entry maps the frame that it is
written for, with flags a user may ask for, as long as the permissions of the calls have no other
bits. An entry that `page_dedup` only makes writable keeps the flags that it has.

Main definitions:

* `Jos.allowedFlags` — `PTE_SYSCALL`, with `PTE_PS` for an area of huge pages;
* `Jos.NotForged` — the entry maps the frame that it was written for, with no other flags;
* `Jos.MadeWritable` — the entry was there, and is only made writable;
* `Jos.Adds` — what a part of the kernel adds to the entries written, when it leaves the areas
  alone;
* `Jos.Permitted` — the areas of an environment have permissions with no other bits;
* `Jos.PermStep` — the two calls and page faults.

Main results:

* `Jos.pageInsert_adds`, `Jos.pageFaultHandler_adds` — what they write;
* `Jos.createVm_permitted`, `Jos.protectVm_permitted` — the areas after the calls;
* `Jos.perms_forge_nothing` — **no entry is forged**, in a run whose steps meet the condition.
-/

import JosKernel.EagerFork
import JosKernel.HugeOrigins

set_option relaxedAutoImplicit false
set_option autoImplicit false

namespace Jos

open LabelledRun LinkedList Outcome

attribute [local irreducible] paddr vmaProcInit

/-! ### Flags -/

/-- `PTE_SYSCALL`, the flags that may be used in system calls, and `PTE_PS` for an area of huge
pages. -/
def allowedFlags (huge : Bool) : BitVec 32 :=
  pteAvail ||| pteP ||| pteW ||| pteU ||| if huge then ptePS else 0

/-- No bits outside them. -/
def AllowedPerm (huge : Bool) (perm : BitVec 32) : Prop := perm &&& ~~~allowedFlags huge = 0

instance (huge : Bool) (perm : BitVec 32) : Decidable (AllowedPerm huge perm) :=
  inferInstanceAs (Decidable (_ = _))

/-- **The entry maps the frame that it was written for**, and has no flags outside them. -/
def NotForged (huge : Bool) (w : PteWrite) : Prop :=
  pteAddr w.pte = page2pa w.frame ∧ AllowedPerm huge (w.pte &&& 0xFFF#32)

/-- **An entry that `page_dedup` makes writable**: it is there, and maps a frame with one reference,
at an address of a writable area. It keeps its frame and the flags that it has. -/
def MadeWritable (s : Vm) (e : ℕ) (va : BitVec 32) (w : PteWrite) : Prop :=
  ∃ p v, pgdirFind s (s.pgdir e) va = .ok (some p) ∧ vmaLookup (s.envs e) va = .ok (some v) ∧
    isWritable (s.vma e v).perm = true ∧ s.ref (pgnum (s.pte p)) = 1 ∧
    w = ⟨va, pgnum (s.pte p), s.pte p ||| pteW⟩

section

variable {huge : Bool} {perm flags : BitVec 32}

theorem AllowedPerm.mono (h : AllowedPerm false perm) (huge : Bool) : AllowedPerm huge perm := by
  have hmask : ~~~allowedFlags huge = ~~~allowedFlags false &&& ~~~allowedFlags huge := by
    cases huge with
    | false => decide
    | true => decide
  rw [AllowedPerm, hmask, ← BitVec.and_assoc, h]
  exact BitVec.zero_and

theorem AllowedPerm.or (h : AllowedPerm huge perm) (hf : flags &&& ~~~allowedFlags false = 0) :
    AllowedPerm huge (perm ||| flags) := by
  rw [AllowedPerm, BitVec.and_or_distrib_right, h, AllowedPerm.mono hf huge]
  decide

theorem AllowedPerm.lt (h : AllowedPerm huge perm) : perm.toNat < 4096 := by
  have hall : allowedFlags huge ||| ~~~allowedFlags huge = BitVec.allOnes 32 := by
    cases huge with
    | false => decide
    | true => decide
  have hle : perm = perm &&& allowedFlags huge := by
    calc perm = perm &&& (allowedFlags huge ||| ~~~allowedFlags huge) := by
          rw [hall, BitVec.and_allOnes]
      _ = perm &&& allowedFlags huge := by
          rw [BitVec.and_or_distrib_left, show perm &&& ~~~allowedFlags huge = 0#32 from h,
            BitVec.or_zero]
  have hsmall : (allowedFlags huge).toNat < 4096 := by
    cases huge with
    | false => decide
    | true => decide
  rw [hle, BitVec.toNat_and]
  exact Nat.lt_of_le_of_lt Nat.and_le_right hsmall

theorem AllowedPerm.and_fff (h : AllowedPerm huge perm) : AllowedPerm huge (perm &&& 0xFFF#32) := by
  rw [AllowedPerm, BitVec.and_assoc, BitVec.and_comm 0xFFF#32, ← BitVec.and_assoc, h]
  exact BitVec.zero_and

theorem NotForged.mono {w : PteWrite} (h : NotForged false w) (huge : Bool) : NotForged huge w :=
  ⟨h.1, h.2.mono huge⟩

/-- **`page_insert`, and the new entry of `page_dedup`**. -/
theorem notForged_insert (h : AllowedPerm huge perm) (va : BitVec 32) (pp : ℕ) :
    NotForged huge ⟨va, pp, page2pa pp ||| perm ||| pteP⟩ := by
  have hP : AllowedPerm huge (perm ||| pteP) := h.or (by decide)
  refine ⟨?_, ?_⟩
  · change pteAddr (page2pa pp ||| perm ||| pteP) = page2pa pp
    rw [BitVec.or_assoc]
    exact pteAddr_page2pa_or pp hP.lt
  · change AllowedPerm huge ((page2pa pp ||| perm ||| pteP) &&& 0xFFF#32)
    rw [BitVec.or_assoc, page2pa_or_and pp _ (by decide)]
    exact hP.and_fff

/-- **The entry of a directory** for a new page table. -/
theorem notForged_table (va : BitVec 32) (pg : ℕ) :
    NotForged false ⟨va, pg, page2pa pg ||| pteP ||| pteW ||| pteU⟩ := by
  have hflags : AllowedPerm false (pteP ||| pteW ||| pteU) := by decide
  have heq : page2pa pg ||| pteP ||| pteW ||| pteU = page2pa pg ||| (pteP ||| pteW ||| pteU) := by
    rw [BitVec.or_assoc, BitVec.or_assoc, BitVec.or_assoc]
  refine ⟨?_, ?_⟩
  · change pteAddr (page2pa pg ||| pteP ||| pteW ||| pteU) = page2pa pg
    rw [heq]
    exact pteAddr_page2pa_or pg hflags.lt
  · change AllowedPerm false ((page2pa pg ||| pteP ||| pteW ||| pteU) &&& 0xFFF#32)
    rw [heq, page2pa_or_and pg _ (by decide)]
    exact hflags.and_fff

/-- `PTE_W` does not change the frame of an entry. -/
theorem pteAddr_writable (w : BitVec 32) : pteAddr (w ||| pteW) = page2pa (pgnum w) := by
  have hsame : (w ||| pteW) &&& ~~~0xFFF#32 = w &&& ~~~0xFFF#32 := or_flag_and (by decide)
  rw [pteAddr, hsame]
  exact (pteAddr_eq_page2pa_iff (pgnum_lt w)).2 rfl

end

/-! ### What is written -/

/-- **The entries written since** are as `P` says, and the areas are the same. -/
structure Adds (P : PteWrite → Prop) (s s' : Vm) : Prop where
  log : LogGrows P s s'
  vmas : SameVmas s s'

namespace Adds

variable {P : PteWrite → Prop} {s s' s'' : Vm}

theorem of_same (hlog : s'.written = s.written) (hvmas : SameVmas s s') : Adds P s s' :=
  ⟨.of_eq hlog, hvmas⟩

theorem refl (s : Vm) : Adds P s s := of_same rfl (SameVmas.refl s)

theorem trans (h : Adds P s s') (h' : Adds P s' s'') : Adds P s s'' :=
  ⟨h.log.trans h'.log, h.vmas.trans h'.vmas⟩

theorem mono {Q : PteWrite → Prop} (h : Adds P s s') (hPQ : ∀ w, P w → Q w) : Adds Q s s' :=
  ⟨h.log.mono hPQ, h.vmas⟩

/-- Frames and memory. -/
theorem mm (s : Vm) (m : Mm) : Adds P s { s with mm := m } := of_same rfl fun _ => rfl

theorem write (s : Vm) (p : PtePtr) {va : BitVec 32} {f : ℕ} {w : BitVec 32} (h : P ⟨va, f, w⟩) :
    Adds P s (s.writePte p va f w) := by
  refine ⟨fun x hx => ?_, fun _ => rfl⟩
  rcases List.mem_cons.1 hx with rfl | hx
  · exact Or.inr h
  · exact Or.inl hx

/-- A loop. -/
theorem foldlM {α : Type} {f : Vm → α → Except Crash Vm}
    (hf : ∀ s a, Ends (fun _ => True) (Adds P s) (f s a)) :
    ∀ (l : List α) (s : Vm), Ends (fun _ => True) (Adds P s) (l.foldlM f s) := by
  intro l
  induction l with
  | nil => exact fun s => refl s
  | cons a l ih =>
      intro s
      rw [List.foldlM_cons, ends_bind]
      refine (hf s a).post fun s₁ h₁ => (ih s₁).post fun s₂ h₂ => h₁.trans h₂

theorem loop {f : Vm → ℕ → Except Crash Vm} (hf : ∀ s a, Ends (fun _ => True) (Adds P s) (f s a))
    (n : ℕ) (s : Vm) :
    Ends (fun _ => True) (Adds P s) ((List.range n).foldlM f s) := foldlM hf _ s

end Adds

/-- Something that is only looked at, or does not concern the entries. -/
theorem ends_skip {α β : Type} {Q : β → Prop} {x : Except Crash α} {f : α → Except Crash β}
    (h : ∀ a, Ends (fun _ => True) Q (f a)) : Ends (fun _ => True) Q (x >>= f) := by
  rw [ends_bind]
  exact Ends.of_forall h x

section

variable {P : PteWrite → Prop} {huge : Bool} {perm : BitVec 32}

theorem pgdirWalk_adds (s : Vm) (pgdir : Option ℕ) (va : BitVec 32) (create : Create) :
    Ends (fun _ => True) (fun r => Adds (NotForged huge) s r.2) (pgdirWalk s pgdir va create) := by
  unfold pgdirWalk
  split
  · exact True.intro
  · refine ends_ite (fun _ => ?_) fun _ => ?_
    · exact ends_skip fun _ => Adds.refl s
    · split
      · exact Adds.mm s _
      · refine ends_skip fun r => ?_
        obtain ⟨pg, mm⟩ := r
        cases pg with
        | none => exact Adds.mm s mm
        | some pg =>
            refine ends_skip fun _ => ?_
            exact ((Adds.mm s mm).trans (Adds.write _ _ ((notForged_table va pg).mono huge))).trans
              (Adds.mm _ _)

theorem clearEntry_adds (s : Vm) (pgdir : Option ℕ) (va : BitVec 32) :
    Ends (fun _ => True) (Adds P s) (clearEntry s pgdir va) := by
  refine ends_skip fun pte => ?_
  cases pte with
  | none => exact Adds.refl s
  | some pte => exact Adds.mm s _

theorem pageRemove_adds (s : Vm) (pgdir : Option ℕ) (va : BitVec 32) :
    Ends (fun _ => True) (Adds P s) (pageRemove s pgdir va) := by
  unfold pageRemove
  refine ends_ite (fun _ => True.intro) fun _ => ?_
  refine ends_skip fun pp => ?_
  cases pp with
  | none => exact Adds.refl s
  | some pp =>
      refine ends_ite (fun _ => True.intro) fun _ => ?_
      have hrest : ∀ s' : Vm, Adds P s s' →
          Ends (fun _ => True) (Adds P s) (clearEntry s' pgdir va) :=
        fun s' hs' => (clearEntry_adds s' pgdir va).post fun _ h => hs'.trans h
      refine ends_ite (fun _ => ?_) fun _ => hrest _ (Adds.mm s _)
      rw [ends_bind]
      refine Ends.post (Q := fun s' => Adds P s s') ?_ hrest
      exact ends_skip fun r => ends_skip fun mm => Adds.mm s mm

/-- **`page_insert`** writes the address of the page and the permission. -/
theorem pageInsert_adds (hperm : AllowedPerm huge perm) (s : Vm) (pgdir pp : Option ℕ)
    (va : BitVec 32) :
    Ends (fun _ => True) (fun r => Adds (NotForged huge) s r.2)
      (pageInsert s pgdir pp va perm) := by
  unfold pageInsert
  split
  · exact True.intro
  · exact True.intro
  · rename_i dir pp
    refine ends_ite (fun _ => True.intro) fun _ => ?_
    simp only [ends_bind]
    refine (@pgdirWalk_adds huge s (some dir) va _).post fun r hr => ?_
    obtain ⟨pte, s₁⟩ := r
    cases pte with
    | none => exact hr
    | some pte =>
        have hend : ∀ s₂ : Vm, Adds (NotForged huge) s₁ s₂ → Adds (NotForged huge) s
            ((if pteAddr (s₁.pte pte) ≠ page2pa pp then s₂.setRef pp (s₂.ref pp + 1)
              else s₂).writePte pte va pp
              (page2pa pp ||| perm ||| pteP)) := by
          intro s₂ h₂
          refine ((Adds.trans hr h₂).trans ?_).trans
            (Adds.write _ pte (notForged_insert hperm va pp))
          split
          · exact Adds.mm s₂ _
          · exact Adds.refl s₂
        refine ends_ite (fun _ => ?_) fun _ => ?_
        · rw [ends_bind]
          exact (pageRemove_adds s₁ (some dir) va).post hend
        · exact hend s₁ (Adds.refl s₁)

/-- The counter of pages. -/
theorem Adds.addPages (s : Vm) (e : ℕ) (n : BitVec 32) : Adds P s (addPages s e n) :=
  of_same rfl (SameVmas.modSpace s e fun _ => rfl)

/-- **`region_alloc`.** -/
theorem regionAlloc_adds (hperm : AllowedPerm huge perm) (s : Vm) (e : ℕ) (va len : BitVec 32) :
    Ends (fun _ => True) (Adds (NotForged huge) s) (regionAlloc s e va len perm) := by
  refine Adds.foldlM (fun s i => ?_) _ s
  refine ends_skip fun r => ?_
  obtain ⟨p, mm⟩ := r
  cases p with
  | none => exact True.intro
  | some p =>
      change Ends _ _ (pageInsert { s with mm := mm } (s.pgdir e) (some p) _ perm >>= _)
      rw [ends_bind]
      refine (pageInsert_adds hperm { s with mm := mm } _ _ _).post fun r hr => ?_
      refine ends_ite (fun _ => True.intro) fun _ => ?_
      exact ((Adds.mm s mm).trans hr).trans ((Adds.mm r.2 _).trans (Adds.addPages _ e 1))

theorem kernelFill_adds (s : Vm) (e : ℕ) (va : BitVec 32) (src : ℕ → BitVec 8) (n : ℕ) :
    Ends (fun _ => True) (Adds P s) (kernelFill s e va src n) := by
  refine Adds.foldlM (fun s k => ?_) _ s
  unfold kernelStore
  split
  · exact Adds.mm s _
  · exact True.intro

/-- The loop of `vma_change_perm`. -/
theorem changePermFrom_adds (hperm : AllowedPerm huge perm) (e : ℕ) (va : BitVec 32) :
    ∀ (n i : ℕ) (s : Vm),
    Ends (fun _ => True) (Adds (NotForged huge) s) (changePermFrom e va perm n i s) := by
  intro n
  induction n with
  | zero => exact fun i s => Adds.refl s
  | succ n ih =>
      intro i s
      rw [changePermFrom]
      refine ends_skip fun pte => ?_
      cases pte with
      | none => exact Adds.refl s
      | some pte =>
          refine ends_ite (fun _ => ?_) fun _ => ih (i + 1) s
          refine ends_skip fun pp => ?_
          cases pp with
          | none => exact Adds.refl s
          | some pp =>
              change Ends _ _ (pageInsert s (s.pgdir e) (some pp) _ perm >>= _)
              rw [ends_bind]
              exact (pageInsert_adds hperm s _ _ _).post fun r hr => (ih (i + 1) r.2).post
                fun _ h => hr.trans h

/-- The area of the program that `alloc_page_after_fault` loads. -/
theorem loadBinary_adds {s : Vm} {e v : ℕ} (hperm : AllowedPerm huge (s.vma e v).perm) :
    Ends (fun _ => True) (Adds (NotForged huge) s) (loadBinary s e v) := by
  unfold loadBinary
  dsimp only
  rw [ends_bind]
  refine (regionAlloc_adds (hperm.or (by decide)) s e _ _).post fun s₁ h₁ => ?_
  rw [ends_bind]
  refine (@kernelFill_adds (NotForged huge) s₁ e _ _ _).post fun s₂ h₂ => ?_
  have hrest : ∀ s₃ : Vm, Adds (NotForged huge) s₂ s₃ →
      Ends (fun _ => True) (Adds (NotForged huge) s)
      (if ¬ isWritable (s.vma e v).perm then vmaChangePerm s₃ e v (s.vma e v).perm
        else pure s₃) := by
    intro s₃ h₃
    have hadds := (h₁.trans h₂).trans h₃
    refine ends_ite (fun _ => ?_) fun _ => hadds
    have hvma : s₃.vma e v = s.vma e v := congrArg (fun x => x.1 v) (hadds.vmas e)
    have hself : (s₃.modSpace e fun sp => sp.modVma v fun x =>
        { x with perm := (s.vma e v).perm }) = s₃ := by
      refine Vm.modSpace_eq_self (Space.modVma_eq_self ?_)
      rw [← hvma]
      rfl
    rw [vmaChangePerm, hself]
    exact (changePermFrom_adds hperm e _ _ 0 s₃).post fun _ h => hadds.trans h
  refine Ends.ite_bind (ends_ite (fun _ => ?_) fun _ => hrest s₂ (Adds.refl s₂))
  exact (@kernelFill_adds (NotForged huge) s₂ e _ _ _).post hrest

/-- An entry that is there is found whether one may be made or not. -/
theorem pgdirWalk_of_find {s : Vm} {pgdir : Option ℕ} {va : BitVec 32} {p : PtePtr}
    (h : pgdirFind s pgdir va = .ok (some p)) :
    pgdirWalk s pgdir va .normal = .ok (some p, s) := by
  cases pgdir with
  | none => cases h
  | some dir =>
      by_cases hP : isPresent (s.pte ⟨dir, pdx va⟩) = true
      · have hcreate : (Create.normal == Create.huge) = false := rfl
        rw [pgdirFind, if_pos hP] at h
        obtain ⟨q, hq, heq⟩ := bind_eq_ok.1 h
        obtain rfl := Option.some.inj (Except.ok.inj heq)
        rw [pgdirWalk]
        dsimp only
        rw [if_pos hP, hcreate, hq]
        rfl
      · rw [pgdirFind, if_neg hP] at h
        cases h

theorem copyPage_adds (s : Vm) (pgn pg : ℕ) : Ends (fun _ => True) (Adds P s) (copyPage s pgn pg) :=
  ends_skip fun _ => ends_skip fun _ => Adds.mm s _

/-- **`page_dedup`** makes the entry writable, or writes the address of the copy and the permission
of the area. -/
theorem pageDedup_adds {s : Vm} {e v : ℕ} {va : BitVec 32} {p : PtePtr}
    (hfind : pgdirFind s (s.pgdir e) va = .ok (some p))
    (hlook : vmaLookup (s.envs e) va = .ok (some v)) (hw : isWritable (s.vma e v).perm = true)
    (hperm : AllowedPerm huge (s.vma e v).perm) :
    Ends (fun _ => True) (fun r => Adds (fun w => NotForged huge w ∨ MadeWritable s e va w) s r.2)
      (pageDedup s e va) := by
  unfold pageDedup
  rw [hlook, pgdirWalk_of_find hfind]
  change Ends _ _ (pa2page s.mm.npages (pteAddr (s.pte p)) >>= _)
  by_cases hpage : s.mm.npages ≤ pgnum (pteAddr (s.pte p))
  · rw [pa2page, if_pos hpage]
    exact True.intro
  rw [pa2page, if_neg hpage]
  change Ends _ _ (if s.ref (pgnum (pteAddr (s.pte p))) = 1 then _ else _)
  refine ends_ite (fun href => ?_) fun _ => ends_ite (fun _ => True.intro) fun _ => ?_
  · -- the entry is only made writable
    rw [pgnum_pteAddr] at href ⊢
    exact Adds.write s p (Or.inr ⟨p, v, hfind, hlook, hw, href, rfl⟩)
  refine ends_skip fun r => ?_
  obtain ⟨pgn, mm⟩ := r
  cases pgn with
  | none => exact (Adds.mm s _).trans (Adds.mm _ mm)
  | some pgn =>
      obtain ⟨s₁, hs₁⟩ : ∃ s₁ : Vm, s₁ = { s.setRef (pgnum (pteAddr (s.pte p)))
        (s.ref (pgnum (pteAddr (s.pte p))) - 1) with mm := mm } := ⟨_, rfl⟩
      have h₁ : Adds (NotForged huge) s s₁ := hs₁ ▸ (Adds.mm s _).trans (Adds.mm _ mm)
      change Ends _ _ (copyPage { s.setRef _ _ with mm := mm } pgn _ >>= _)
      rw [← hs₁, ends_bind]
      refine (@copyPage_adds (NotForged huge) s₁ _ _).post fun s₂ h₂ => ?_
      have hsame : s₂.vma e v = s.vma e v := congrArg (fun x => x.1 v) ((h₁.trans h₂).vmas e)
      have hperm₂ : AllowedPerm huge (s₂.vma e v).perm := by
        rw [hsame]
        exact hperm
      have hwrite := Adds.write s₂ p (notForged_insert hperm₂ va pgn)
      exact (((h₁.trans h₂).trans hwrite).trans (Adds.mm _ _)).mono fun _ h => Or.inl h

/-! ### The handler -/

/-- **What a page fault adds** to the entries written: the areas are the same, or the environment
has been destroyed. -/
def FaultAdds (P : PteWrite → Prop) (s s' : Vm) (e : ℕ) : Prop :=
  LogGrows P s s' ∧ ((s'.envs e).lists = (s.envs e).lists ∨
    ∃ sp, (s'.envs e).lists = (vmaProcInit sp).lists)

theorem Adds.fault {s s' : Vm} (h : Adds P s s') (e : ℕ) : FaultAdds P s s' e :=
  ⟨h.log, Or.inl (h.vmas e)⟩

theorem decref_adds (s : Vm) (pp : ℕ) : Ends (fun _ => True) (Adds P s) (decref s pp) :=
  ends_skip fun _ => Adds.mm s _

theorem decrefKva_adds (s : Vm) (pp : ℕ) : Ends (fun _ => True) (Adds P s) (decrefKva s pp) :=
  ends_skip fun _ => ends_skip fun _ => decref_adds s _

theorem freePte_adds (e pdeno pt : ℕ) (s : Vm) (pteno : ℕ) :
    Ends (fun _ => True) (Adds P s) (freePte e pdeno pt s pteno) :=
  ends_ite (fun _ => pageRemove_adds s _ _) fun _ => Adds.refl s

theorem freePde_adds (e dir : ℕ) (s : Vm) (pdeno : ℕ) :
    Ends (fun _ => True) (Adds P s) (freePde e dir s pdeno) := by
  unfold freePde
  refine ends_ite (fun _ => ?_) fun _ => Adds.refl s
  dsimp only
  rw [ends_bind]
  refine Ends.of_forall (fun _ => ?_) _
  -- the bound is a variable, so that nothing evaluates the loop
  generalize nPdEntries = n
  rw [ends_bind]
  refine (Adds.loop (@freePte_adds P e pdeno _) n s).post fun s₁ h₁ => ?_
  exact ends_skip fun _ => (decref_adds _ _).post fun _ h => (h₁.trans (Adds.mm s₁ _)).trans h

/-- **`env_free`** writes no entry that maps something. -/
theorem envFreeVm_adds (s : Vm) (e : ℕ) :
    Ends (fun _ => True) (fun s' => FaultAdds P s s' e) (envFreeVm s e) := by
  cases hdir : s.pgdir e with
  | none =>
      rw [envFreeVm, hdir]
      exact True.intro
  | some dir =>
      obtain ⟨n, hn⟩ : ∃ n, n = pdx uTop := ⟨_, rfl⟩
      rw [envFreeVm_eq hdir, ends_bind, ← hn]
      refine (Adds.loop (@freePde_adds P e dir) n s).post fun s₁ h₁ => ?_
      rw [freeDir, ends_bind]
      refine (@decrefKva_adds P _ dir).post fun s₂ h₂ => ?_
      refine (@decrefKva_adds P s₂ _).post fun s₃ h₃ => ?_
      have hadds := h₂.trans h₃
      refine ⟨h₁.log.trans hadds.log, Or.inr ⟨s₁.envs e, (hadds.vmas e).trans ?_⟩⟩
      rw [Vm.modSpace_self]
      rfl

theorem killEnv_adds (s : Vm) (e : ℕ) :
    Ends (fun _ => True) (fun r => FaultAdds P s r.2 e) (killEnv s e) := by
  rw [killEnv, ends_bind]
  exact (envFreeVm_adds s e).post fun _ h => h

/-- **A page of zeros.** -/
theorem allocAnon_adds {s : Vm} {e v : ℕ} (hperm : AllowedPerm huge (s.vma e v).perm)
    (va : BitVec 32) :
    Ends (fun _ => True) (fun r => FaultAdds (NotForged huge) s r.2 e) (allocAnon s e v va) := by
  unfold allocAnon
  refine ends_skip fun r => ?_
  obtain ⟨pg, mm⟩ := r
  have hrest : ∀ s₁ : Vm, Adds (NotForged huge) s s₁ →
      Ends (fun _ => True) (fun r => FaultAdds (NotForged huge) s r.2 e)
        (pageInsert s₁ (s₁.pgdir e) pg va (s.vma e v).perm >>= fun r =>
          if r.1 then pure (.resumed, r.2) else killEnv r.2 e) := by
    intro s₁ h₁
    rw [ends_bind]
    refine (pageInsert_adds hperm s₁ _ _ _).post fun r hr => ?_
    have h₂ := h₁.trans hr
    refine ends_ite (fun _ => h₂.fault e) fun _ => (@killEnv_adds (NotForged huge) r.2 e).post
      fun r' hr' => ?_
    refine ⟨h₂.log.trans hr'.1, hr'.2.imp_left fun h => h.trans (h₂.vmas e)⟩
  refine hrest _ ?_
  have h₀ : Adds (NotForged huge) s { s with mm := mm } := Adds.mm s mm
  cases pg with
  | none => exact h₀
  | some pg =>
      dsimp only
      split
      · exact h₀.trans (Adds.addPages _ e _)
      · split
        · exact (h₀.trans (Adds.mm _ _)).trans (Adds.addPages _ e _)
        · exact h₀.trans (Adds.addPages _ e _)

theorem allocPageAfterFault_adds {s : Vm} {e : ℕ} {va : BitVec 32}
    (harea : ∀ v, vmaLookup (s.envs e) va = .ok (some v) → AllowedPerm huge (s.vma e v).perm) :
    Ends (fun _ => True) (fun r => FaultAdds (NotForged huge) s r.2 e)
      (allocPageAfterFault s e va) := by
  unfold allocPageAfterFault
  cases hlook : vmaLookup (s.envs e) va with
  | error c => exact True.intro
  | ok v =>
      cases v with
      | none => exact killEnv_adds s e
      | some v =>
          have hperm := harea v hlook
          refine ends_ite (fun _ => ?_) fun _ => allocAnon_adds hperm va
          rw [ends_bind]
          exact (loadBinary_adds hperm).post fun _ h => h.fault e

/-- **`page_fault_handler`**, where the area at the address has a permission with no other bits: an
entry has no other flags, or is only made writable. -/
theorem pageFaultHandler_adds {s : Vm} {e : ℕ} {va : BitVec 32} (user prot : Bool)
    (harea : ∀ v, vmaLookup (s.envs e) va = .ok (some v) → AllowedPerm huge (s.vma e v).perm)
    (hprot : prot = true → pgdirFind s (s.pgdir e) va ≠ .ok none) :
    Ends (fun _ => True)
      (fun r => FaultAdds (fun w => NotForged huge w ∨ MadeWritable s e va w) s r.2 e)
      (s.pageFaultHandler e va user prot) := by
  have halloc : Ends (fun _ => True)
      (fun r => FaultAdds (fun w => NotForged huge w ∨ MadeWritable s e va w) s r.2 e)
      (allocPageAfterFault s e va) :=
    (allocPageAfterFault_adds harea).post fun _ h => ⟨h.1.mono fun _ hw => Or.inl hw, h.2⟩
  unfold Vm.pageFaultHandler
  refine ends_ite (fun _ => True.intro) fun _ => ends_ite (fun _ => halloc) fun _ => ?_
  cases hfind : pgdirFind s (s.pgdir e) va with
  | error c => exact True.intro
  | ok pte =>
      change Ends _ _ (if _ then _ else _)
      refine ends_ite (fun _ => (Adds.refl s).fault e) fun _ => ends_ite (fun _ => halloc) fun hp =>
        ?_
      have hp : prot = true := by simpa using hp
      cases hlook : vmaLookup (s.envs e) va with
      | error c => exact True.intro
      | ok v =>
          change Ends _ _ (if _ then _ else _)
          refine ends_ite (fun hw => ?_) fun _ => killEnv_adds s e
          obtain ⟨v, rfl⟩ : ∃ i, v = some i := by
            cases v with
            | none => exact absurd hw (by simp)
            | some i => exact ⟨i, rfl⟩
          cases pte with
          | none => exact absurd hfind (hprot hp)
          | some p =>
              rw [ends_bind]
              refine (pageDedup_adds hfind hlook (by simpa using hw) (harea v hlook)).post
                fun r hr => ?_
              exact hr.fault e

end

/-! ### Areas -/

/-- **The lists are well formed, and the areas in use have permissions with no other bits.** -/
structure Permitted (sp : Space) (la lf : List ℕ) : Prop extends VmaInv sp la lf where
  perm : ∀ i ∈ la, AllowedPerm (sp.vmas i).hps (sp.vmas i).perm

/-- What of a descriptor the permissions of its area depend on. -/
theorem allowed_of_body {v w : Vma} (h : v.body = w.body) (hw : AllowedPerm w.hps w.perm) :
    AllowedPerm v.hps v.perm := by
  rw [← v.body_hps, show v.perm = v.body.perm from rfl, h]
  exact hw

namespace Permitted

variable {sp sp' : Space} {la lf : List ℕ} {i : ℕ}

theorem congr (h : Permitted sp la lf) (hl : sp'.lists = sp.lists) : Permitted sp' la lf := by
  refine ⟨h.toVmaInv.congr hl, fun i hi => ?_⟩
  rw [show sp'.vmas = sp.vmas from congrArg Prod.fst hl]
  exact h.perm i hi

/-- A descriptor in use is changed. -/
theorem modVma (h : Permitted sp la lf) (hi : i ∉ lf) {f : Vma → Vma}
    (hlink : ∀ v, (f v).vmaLink = v.vmaLink)
    (hf : i ∈ la → AllowedPerm (f (sp.vmas i)).hps (f (sp.vmas i)).perm) :
    Permitted (sp.modVma i f) la lf := by
  refine ⟨h.toVmaInv.modVma hi hlink, fun j hj => ?_⟩
  by_cases hji : j = i
  · subst hji
    rw [Space.modVma_self]
    exact hf hj
  · rw [Space.modVma_of_ne _ _ hji]
    exact h.perm j hj

/-- The end of `vma_remove_alloced`. -/
theorem unlink {pre post : List ℕ} {x : ℕ} (h : Permitted sp (pre ++ x :: post) lf) :
    Permitted (vmaUnlink sp (pre.getLastD x) x) (pre ++ post) (x :: lf) := by
  have hnd := nodup_split h.alloc.nodup
  refine ⟨h.toVmaInv.unlink, fun j hj => ?_⟩
  have hj := List.mem_append.1 hj
  have hne : j ≠ x := by
    rintro rfl
    exact hj.elim hnd.1 hnd.2
  refine allowed_of_body (Sorted.unlink_body j hne) (h.perm j ?_)
  rcases hj with hj | hj
  · exact List.mem_append_left _ hj
  · exact List.mem_append_right _ (List.mem_cons_of_mem _ hj)

end Permitted

/-- **`vma_new`** of an area in a row. -/
theorem vmaNew_anon {sp : Space} {la lf : List ℕ} (h : VmaInv sp la lf) (va len perm : BitVec 32) :
    Ends (fun _ => True)
      (fun r => r = (.failed, sp) ∨ va % BitVec.ofNat 32 pgSize = 0 ∧ ∃ el la' lf', r.1 = .made el ∧
        VmaInv r.2 la' lf' ∧
        la'.Perm (el :: la) ∧ (r.2.vmas el).perm = perm ∧
        ∀ j ≠ el, (r.2.vmas j).body = (sp.vmas j).body)
      (vmaNew sp va len .anon 0 0 0 perm) := by
  by_cases hpage : va % BitVec.ofNat 32 pgSize = 0
  · have hpage' : va.toNat % 4096 = 0 := mod_pgSize_eq_zero.1 hpage
    cases lf with
    | nil =>
        rw [vmaNew_empty h, if_neg (by simp), if_neg (not_not_intro hpage)]
        exact True.intro
    | cons el lf =>
        obtain ⟨pre, post, sp', rfl, -, -, hmade, hinv, hat⟩ :=
          @vmaNew_place sp el la lf h va len .anon 0 0 0 perm (by simp) hpage'
        rw [hmade]
        have hperm : (sp'.vmas el).body.perm = perm := by
          rw [hat.body]
          rfl
        exact Or.inr ⟨hpage, el, _, lf, rfl, hinv, List.perm_middle, hperm, hat.others⟩
  · rw [vmaNew_unaligned (mod_pgSize_eq_zero.not.1 hpage)]
    exact Or.inl rfl

/-- **What a step leaves of the areas**: no entry was written, those in use have permissions with no
other bits, and those of `la` are in use. -/
def KeptAreas (s s' : Vm) (e : ℕ) (la : List ℕ) : Prop :=
  s'.written = s.written ∧ ∃ la' lf', Permitted (s'.envs e) la' lf' ∧ ∀ i ∈ la, i ∈ la'

section

variable {s : Vm} {e : ℕ} {la lf : List ℕ} {perm : BitVec 32}

theorem Permitted.kept (h : Permitted (s.envs e) la lf) : KeptAreas s s e la :=
  ⟨rfl, la, lf, h, fun _ hi => hi⟩

theorem vmaSplitOff_permitted (h : Permitted (s.envs e) la lf) (hperm : AllowedPerm false perm)
    (va len : BitVec 32) :
    Ends (fun _ => True) (fun s' => KeptAreas s s' e la) (vmaSplitOff s e va len .anon perm) := by
  rw [vmaSplitOff, ends_bind, Vm.onSpace, ends_bind]
  refine (vmaNew_anon h.toVmaInv va len perm).post ?_
  rintro ⟨r, sp⟩ hnew
  change KeptAreas s (s.modSpace e fun _ => sp) e la
  have hself : (s.modSpace e fun _ => sp).envs e = sp := Vm.modSpace_self ..
  rcases hnew with hr | ⟨-, el, la', lf', -, hinv, hmem, hel, hothers⟩
  · obtain ⟨-, rfl⟩ := Prod.mk.inj hr
    exact ⟨rfl, la, lf, by rw [hself]; exact h, fun _ hi => hi⟩
  · refine ⟨rfl, la', lf', ?_, fun i hi => hmem.mem_iff.2 (List.mem_cons_of_mem _ hi)⟩
    rw [hself]
    refine ⟨hinv, fun j hj => ?_⟩
    by_cases hje : j = el
    · subst hje
      rw [show (sp.vmas j).perm = perm from hel]
      exact hperm.mono _
    · exact allowed_of_body (hothers j hje) (h.perm j
        ((List.mem_cons.1 (hmem.mem_iff.1 hj)).resolve_left hje))

/-- A part is split off, after the area was made shorter. -/
theorem splitOff_permitted {v : ℕ} (h : Permitted (s.envs e) la lf) (hv : v ∈ la) (f : Vma → Vma)
    (hlink : ∀ w, (f w).vmaLink = w.vmaLink) (hf : ∀ w, (f w).hps = w.hps ∧ (f w).perm = w.perm)
    (hperm : AllowedPerm false perm) (va len : BitVec 32) :
    Ends (fun _ => True) (fun s' => KeptAreas s s' e la)
      (vmaSplitOff (s.modSpace e fun sp => sp.modVma v f) e va len .anon perm) := by
  have hself : (s.modSpace e fun sp => sp.modVma v f).envs e = (s.envs e).modVma v f :=
    Vm.modSpace_self ..
  have hmod : Permitted ((s.modSpace e fun sp => sp.modVma v f).envs e) la lf := by
    rw [hself]
    refine h.modVma (h.not_mem_free hv) hlink fun hi => ?_
    rw [(hf _).1, (hf _).2]
    exact h.perm v hi
  exact vmaSplitOff_permitted hmod hperm va len

/-- **The parts beside the range.** -/
theorem vmaSplitParts_permitted {v : ℕ} {V : Vma} (h : Permitted (s.envs e) la lf) (hv : v ∈ la)
    (hanon : V.type = .anon) (hperm : AllowedPerm false V.perm) (va size : BitVec 32) :
    Ends (fun _ => True) (fun s' => KeptAreas s s' e la) (vmaSplitParts s e v V va size false) := by
  have hright : ∀ s₁ : Vm, KeptAreas s s₁ e la → Ends (fun _ => True)
      (fun s' => KeptAreas s s' e la)
      (if va + size < V.va + V.len then
        vmaSplitOff (s₁.modSpace e fun sp => sp.modVma v fun w =>
          { w with len := w.len - (V.len - (va + size - V.va)) }) e (va + size)
          (V.len - (va + size - V.va)) V.type V.perm
      else pure s₁) := by
    rintro s₁ ⟨hlog, la₁, lf₁, h₁, hsub⟩
    rw [hanon]
    refine ends_ite (fun _ => ?_) fun _ => ⟨hlog, la₁, lf₁, h₁, hsub⟩
    refine (splitOff_permitted h₁ (hsub v hv) (fun w =>
      { w with len := w.len - (V.len - (va + size - V.va)) }) (fun _ => rfl)
      (fun _ => ⟨rfl, rfl⟩) hperm _ _).post ?_
    rintro s₂ ⟨hlog₂, la₂, lf₂, h₂, hsub₂⟩
    exact ⟨hlog₂.trans hlog, la₂, lf₂, h₂, fun i hi => hsub₂ i (hsub i hi)⟩
  unfold vmaSplitParts
  refine Ends.ite_bind (ends_ite (fun _ => ?_) fun _ => hright s h.kept)
  rw [hanon]
  refine (splitOff_permitted h hv (fun w => { w with va := va, len := w.len - (va - V.va) })
    (fun _ => rfl) (fun _ => ⟨rfl, rfl⟩) hperm
    _ _).post fun s₁ hs₁ => ?_
  rw [← hanon]
  exact hright s₁ hs₁

/-- **`vma_split_lookup`** of a range that stays mapped. -/
theorem vmaSplitLookup_permitted (h : Permitted (s.envs e) la lf) (va size : BitVec 32) :
    Ends (fun _ => True)
      (fun r => KeptAreas s r.2 e la ∧ ∀ v, r.1 = some v → v ∈ la ∧ foundArea s e va = some v ∧
        (s.vma e v).Splittable ∧
        vmaSizeCheck va size (s.vma e v) = true)
      (vmaSplitLookup s e va size false) := by
  obtain ⟨r, hlook, hin⟩ := (vmaLookup_ends h.toVmaInv va).exists_ok fun _ hc => hc
  have hfound : foundArea s e va = r := by
    rw [foundArea, hlook]
    rfl
  have hnone : KeptAreas s s e la ∧ ∀ v, (none : Option ℕ) = some v → v ∈ la ∧
      foundArea s e va = some v ∧ (s.vma e v).Splittable ∧
      vmaSizeCheck va size (s.vma e v) = true := ⟨h.kept, fun v hv => by cases hv⟩
  rw [vmaSplitLookup, hlook]
  cases r with
  | none => exact hnone
  | some v =>
      refine ends_ite (fun _ => True.intro) fun _ => ends_ite (fun _ => hnone) fun hps =>
        ends_ite (fun _ => hnone) fun hanon =>
        ends_ite (fun _ => hnone) fun hsize => ?_
      have hv : v ∈ la := hin v rfl
      have hanon := not_not.1 hanon
      have hps : (s.vma e v).hps = false := Bool.eq_false_iff.2 hps
      have hperm : AllowedPerm false (s.vma e v).perm := by
        have hallowed := h.perm v hv
        rwa [show ((s.envs e).vmas v).hps = false from hps] at hallowed
      change Ends _ _ (vmaSplitParts s e v (s.vma e v) va size false >>= _)
      rw [ends_bind]
      refine (vmaSplitParts_permitted h hv hanon hperm va size).post fun s' hs' => ⟨hs', ?_⟩
      rintro w ⟨⟩
      exact ⟨hv, hfound, ⟨hanon, hps⟩, not_not.1 hsize⟩

/-- `vma_merge` of neighbours leaves no other permission. -/
theorem vmaMerge_permitted {old i : ℕ} (h : Permitted (s.envs e) la lf)
    (hside : old ∈ la ∧ i ∈ la ∨ old ∈ lf ∧ i ∈ lf) :
    Ends (fun _ => True) (fun r => ∃ la' lf', Permitted (r.2.envs e) la' lf')
      (vmaMerge s e old i) := by
  have hside' : old ∉ lf ∨ i ∈ lf := hside.imp (fun hs => h.not_mem_free hs.1) fun hs => hs.2
  have hlen := vmaMerge_lengthen h.toVmaInv hside'
  unfold vmaMerge
  dsimp only
  obtain ⟨s₁, hs₁⟩ : ∃ s₁, (s.modSpace e fun sp =>
      sp.modVma old fun v => { v with len := v.len + (sp.vmas i).len }) = s₁ := ⟨_, rfl⟩
  rw [hs₁] at hlen ⊢
  have h₁ : Permitted (s₁.envs e) la lf := by
    refine ⟨hlen, fun j hj => ?_⟩
    rw [← hs₁, Vm.modSpace_self]
    by_cases hjo : j = old
    · subst hjo
      rw [Space.modVma_self]
      exact h.perm j hj
    · rw [Space.modVma_of_ne _ _ hjo]
      exact h.perm j hj
  refine (vmaRemoveAlloced_state h₁.toVmaInv i false).mono (fun _ _ => True.intro) ?_
  rintro r (⟨-, rfl⟩ | ⟨pre, x, post, s₂, rfl, -, -, hs₂, rfl⟩)
  · exact ⟨la, lf, h₁⟩
  · obtain rfl := hs₂ rfl
    refine ⟨pre ++ post, x :: lf, ?_⟩
    change Permitted ((s₂.modSpace e fun sp => vmaUnlink sp (pre.getLastD x) x).envs e) _ _
    rw [Vm.modSpace_self]
    exact h₁.unlink

/-- What works on areas writes no entry. -/
theorem AreasOnly.written {s' : Vm} (h : AreasOnly s s' e) : s'.written = s.written := by
  rw [h.same]
  rfl

/-- **`vma_list_merge`** leaves no other permission, and writes no entry. -/
theorem vmaListMerge_permitted (h : Permitted (s.envs e) la lf) :
    Ends (fun _ => True)
      (fun r => r.2.written = s.written ∧ ∃ la' lf', Permitted (r.2.envs e) la' lf')
      (vmaListMerge s e) := by
  have hmerge : ∀ (s : Vm) (la lf : List ℕ) (old i : ℕ), VmaInv (s.envs e) la lf →
      (old ∈ la ∧ i ∈ la ∨ old ∈ lf ∧ i ∈ lf) → (s.vma e old).mergesWith (s.vma e i) = true →
      (∃ la' lf', Permitted (s.envs e) la' lf') →
      Ends (fun _ => True) (fun r => ∃ la' lf', Permitted (r.2.envs e) la' lf')
        (vmaMerge s e old i) := by
    rintro s la lf old i hinv hside - ⟨la', lf', h⟩
    obtain rfl := h.alloc.unique hinv.alloc
    obtain rfl := h.free.unique hinv.free
    exact vmaMerge_permitted h hside
  have hall := (@vmaListMerge_rule s e (fun sp => ∃ la' lf', Permitted sp la' lf') hmerge
    ⟨la, lf, h.toVmaInv⟩ ⟨la, lf, h⟩).mono (fun _ _ => True.intro) fun _ hr => hr.2
  exact ((vmaListMerge_only s e).and hall).mono (fun _ _ => True.intro) fun r hr =>
    ⟨hr.1.written, hr.2⟩

end

section

variable {s : Vm} {e : ℕ} {la lf : List ℕ} {perm : BitVec 32}

/-- The range whose permission `sys_vma_protect` changes. -/
def Protects (s : Vm) (e : ℕ) (va size perm : BitVec 32) : Prop :=
  ∃ v, foundArea s e va = some v ∧ (s.vma e v).Splittable ∧
    vmaSizeCheck va size (s.vma e v) = true ∧ (s.vma e v).perm ≠ perm

/-- **`sys_vma_protect`**: what it adds to the entries written, and the areas after it. -/
theorem protectVm_permitted (h : Permitted (s.envs e) la lf) (va size perm : BitVec 32)
    (hperm : Protects s e va size perm → AllowedPerm false perm) :
    Ends (fun _ => True) (fun r => LogGrows (NotForged false) s r.2 ∧ ∃ la' lf',
      Permitted (r.2.envs e) la' lf')
      (protectVm s e va size perm) := by
  have hsame : LogGrows (NotForged false) s s ∧ ∃ la' lf', Permitted (s.envs e) la' lf' :=
    ⟨.of_eq rfl, la, lf, h⟩
  obtain ⟨r, hlook, -⟩ := (vmaLookup_ends h.toVmaInv va).exists_ok fun _ hc => hc
  have hfound : foundArea s e va = r := by
    rw [foundArea, hlook]
    rfl
  unfold protectVm
  rw [hlook]
  cases r with
  | none => exact hsame
  | some v =>
      refine ends_ite (fun _ => hsame) fun hne => ?_
      rw [ends_bind]
      refine (vmaSplitLookup_permitted h va size).post ?_
      rintro ⟨r, s₁⟩ ⟨⟨hlog, la₁, lf₁, h₁, hsub⟩, hr⟩
      cases r with
      | none => exact ⟨.of_eq hlog, la₁, lf₁, h₁⟩
      | some w =>
          obtain ⟨hw, hfound', hsplit, hsize⟩ := hr w rfl
          obtain rfl := Option.some.inj (hfound.symm.trans hfound')
          have hperm := hperm ⟨v, hfound, hsplit, hsize, hne⟩
          change Ends _ _ (protectEnd s₁ e v perm)
          rw [protectEnd, vmaChangePerm, ends_bind]
          have hmod : Permitted ((s₁.modSpace e fun sp => sp.modVma v fun v =>
              { v with perm := perm }).envs e) la₁ lf₁ := by
            rw [Vm.modSpace_self]
            exact h₁.modVma (h₁.not_mem_free (hsub v hw)) (fun _ => rfl) fun _ => hperm.mono _
          refine (changePermFrom_adds hperm e _ _ 0 _).post fun s₂ h₂ => ?_
          rw [ends_bind]
          refine (vmaListMerge_permitted (hmod.congr (h₂.vmas e))).post ?_
          rintro ⟨ok, s₃⟩ ⟨hlog₃, la₃, lf₃, h₃⟩
          have hlog₁ : LogGrows (NotForged false) s (s₁.modSpace e fun sp => sp.modVma v fun v =>
              { v with perm := perm }) := .of_eq hlog
          exact ⟨(hlog₁.trans h₂.log).trans (.of_eq hlog₃), la₃, lf₃, h₃⟩

/-- A call of `vma_populate` writes nothing. -/
theorem vmaPopulate_written (s : Vm) (e : ℕ) (va size perm : BitVec 32) :
    Ends (fun _ => True) (fun r => r.2.written = s.written)
      (vmaPopulate s e va size perm false) := by
  rw [vmaPopulate]
  cases (roundUp size (BitVec.ofNat 32 pgSize)).toNat / (pgSize * if false = true then kb else 1)
    with
  | zero => rfl
  | succ n =>
      rw [populateFrom]
      refine ends_skip fun r => ?_
      obtain ⟨pg, mm⟩ := r
      cases pg with
      | none => rfl
      | some pg =>
          -- `vma_populate` hands on no frame, and `page_insert` does not stand that.
          dsimp only
          rw [ends_bind]
          unfold pageInsert
          cases Vm.pgdir _ e with
          | none => exact True.intro
          | some d => exact True.intro

/-- **`sys_vma_create`**: it writes no entry, and the area that it makes has the permission of the
call. -/
theorem createVm_permitted (h : Permitted (s.envs e) la lf) (size perm flags : BitVec 32)
    (hperm : SpotFound (s.envs e) size → AllowedPerm (flags &&& mapHugepages != 0) perm) :
    Ends (fun _ => True) (fun r => r.2.written = s.written ∧ ∃ la' lf',
      Permitted (r.2.envs e) la' lf')
      (createVm s e size perm flags) := by
  have hsame : s.written = s.written ∧ ∃ la' lf', Permitted (s.envs e) la' lf' := ⟨rfl, la, lf, h⟩
  unfold createVm
  refine ends_ite (fun _ => hsame) fun _ => ?_
  cases hspot : vmaFindSpot (s.envs e) size with
  | error c => exact True.intro
  | ok spot =>
      change Ends _ _
        ((s.onSpace e fun sp => vmaNew sp spot size .anon 0 0 0 (perm ||| pteU)) >>= _)
      rw [ends_bind, Vm.onSpace, ends_bind]
      refine (vmaNew_anon h.toVmaInv spot size (perm ||| pteU)).post ?_
      rintro ⟨new, sp⟩ hnew
      obtain ⟨s₁, hs₁⟩ : ∃ s₁, (s.modSpace e fun _ => sp) = s₁ := ⟨_, rfl⟩
      have hself : s₁.envs e = sp := by rw [← hs₁, Vm.modSpace_self]
      have hlog : s₁.written = s.written := by
        rw [← hs₁]
        rfl
      rcases hnew with hr | ⟨hpage, el, la', lf', hmade, hinv, hmem, hel, hothers⟩
      · obtain ⟨rfl, rfl⟩ := Prod.mk.inj hr
        refine ⟨rfl, la, lf, ?_⟩
        change Permitted ((s.modSpace e fun _ => s.envs e).envs e) la lf
        rw [Vm.modSpace_self]
        exact h
      obtain rfl : new = .made el := hmade
      change Ends _ _ (createEnd (s.modSpace e fun _ => sp) e el spot size perm flags)
      rw [hs₁, createEnd]
      have hallowed : AllowedPerm (flags &&& mapHugepages != 0) (perm ||| pteU) := by
        refine (hperm ?_).or (by decide)
        rw [SpotFound, hspot]
        exact beq_iff_eq.2 hpage
      have hothers : ∀ j ∈ la', j ≠ el → AllowedPerm (sp.vmas j).hps (sp.vmas j).perm :=
        fun j hj hje =>
        allowed_of_body (hothers j hje) (h.perm j ((List.mem_cons.1
          (hmem.mem_iff.1 hj)).resolve_left hje))
      have hsmall : flags &&& mapHugepages = 0 → Permitted (s₁.envs e) la' lf' := by
        intro hno
        rw [hself]
        refine ⟨hinv, fun j hj => ?_⟩
        by_cases hje : j = el
        · subst hje
          rw [hno] at hallowed
          rw [show (sp.vmas j).perm = perm ||| pteU from hel]
          exact AllowedPerm.mono hallowed _
        · exact hothers j hj hje
      refine ends_ite (fun hpop => ?_) fun hpop => ends_ite (fun hhuge => ?_) fun hno => ?_
      · rw [ends_bind]
        refine ((vmaPopulate_envs spot size perm).and
          (vmaPopulate_written s₁ e spot size perm)).mono (fun _ _ => True.intro) fun r hr => ?_
        refine ⟨hr.2.trans hlog, la', lf', ?_⟩
        rw [show r.2.envs e = s₁.envs e from congrFun hr.1 e]
        exact hsmall hpop.2
      · refine ⟨hlog, la', lf', ?_⟩
        change Permitted ((s₁.modSpace e fun sp => sp.modVma el fun v =>
          { v with hps := true }).envs e) la' lf'
        rw [Vm.modSpace_self, hself]
        have hel' : el ∈ la' := hmem.mem_iff.2 List.mem_cons_self
        refine ⟨hinv.modVma (hinv.not_mem_free hel') fun _ => rfl, fun j hj => ?_⟩
        by_cases hje : j = el
        · subst hje
          rw [Space.modVma_self]
          change AllowedPerm true (sp.vmas j).perm
          rw [show (sp.vmas j).perm = perm ||| pteU from hel]
          rwa [show (flags &&& mapHugepages != 0) = true from bne_iff_ne.2 hhuge] at hallowed
        · rw [Space.modVma_of_ne _ _ hje]
          exact hothers j hj hje
      · exact ⟨hlog, la', lf', hsmall (not_not.1 hno)⟩

end

/-! ### Runs -/

/-- **What a user program does with permissions**: the two calls, and accesses that fault. -/
inductive PermStep
  | create (size perm flags : BitVec 32)
  | protect (va size perm : BitVec 32)
  | fault (va : BitVec 32) (write : Bool)
  deriving DecidableEq, Repr

namespace PermStep

/-- One step of the environment `e`, when it returns. -/
def exec (e : ℕ) (s : Vm) : PermStep → Option Vm
  | create size perm flags => ((createVm s e size perm flags).map Prod.snd).toOption
  | protect va size perm => ((protectVm s e va size perm).map Prod.snd).toOption
  | fault va write =>
      (userFault s e va write).bind fun prot =>
        ((s.pageFaultHandler e va true prot).map Prod.snd).toOption

def Step (e : ℕ) (s : Vm) (c : PermStep) (s' : Vm) : Prop := c.exec e s = some s'

/-- The area of a fault has huge pages. -/
def huge (e : ℕ) (s : Vm) : PermStep → Bool
  | fault va _ => (foundArea s e va).any fun v => (s.vma e v).hps
  | _ => false

/-- **The condition for a step**: the permission of a call that has an effect has no other bits. -/
def KeepsFlags (e : ℕ) (s : Vm) : PermStep → Prop
  | create size perm flags =>
      SpotFound (s.envs e) size → AllowedPerm (flags &&& mapHugepages != 0) perm
  | protect va size perm => Protects s e va size perm → AllowedPerm false perm
  | fault _ _ => True

/-- The entries that a step only makes writable. -/
def MadeWritable (e : ℕ) (s : Vm) : PermStep → PteWrite → Prop
  | fault va _, w => Jos.MadeWritable s e va w
  | _, _ => False

/-- **What a step may write**: an entry maps the frame that it was written for, and has no other
flags, or is only made writable. -/
structure MayWrite (e : ℕ) (s : Vm) (c : PermStep) (w : PteWrite) : Prop where
  maps : pteAddr w.pte = page2pa w.frame
  flags : AllowedPerm (c.huge e s) (w.pte &&& 0xFFF#32) ∨ c.MadeWritable e s w

theorem MayWrite.of_notForged {e : ℕ} {s : Vm} {c : PermStep} {w : PteWrite}
    (h : NotForged (c.huge e s) w) : c.MayWrite e s w := ⟨h.1, Or.inl h.2⟩

end PermStep

/-- A violation of the protection is one of a page that is present. -/
theorem pgdirFind_of_protection {s : Vm} {e : ℕ} {va : BitVec 32} {write : Bool}
    (h : userFault s e va write = some true) :
    pgdirFind s (s.pgdir e) va ≠ .ok none := by
  cases hdir : s.pgdir e with
  | none => simp [userFault, mmu, hdir] at h
  | some d =>
      by_cases hP : isPresent (s.pte ⟨d, pdx va⟩) = true
      · rw [pgdirFind, if_pos hP]
        cases walkEnd s ⟨d, pdx va⟩ va false with
        | error c => exact fun hc => by cases hc
        | ok p => exact fun hc => by cases hc
      · simp [userFault, mmu, hdir, hP] at h

theorem Permitted.found {s : Vm} {e v : ℕ} {la lf : List ℕ} (h : Permitted (s.envs e) la lf)
    {va : BitVec 32} (hlook : vmaLookup (s.envs e) va = .ok (some v)) :
    AllowedPerm (s.vma e v).hps (s.vma e v).perm :=
  h.perm v ((vmaLookup_ends h.toVmaInv va).of_ok hlook v rfl)

/-- The state after a call that returns. -/
theorem toOption_snd_eq_some {α : Type} {x : Except Crash (α × Vm)} {s' : Vm} :
    (x.map Prod.snd).toOption = some s' ↔ ∃ r, x = .ok (r, s') := by
  cases x with
  | error c => simp [Except.map, Except.toOption]
  | ok r => simp [Except.map, Except.toOption, Prod.ext_iff]

/-- **One step** keeps the areas as they should be, and writes no forged entry. -/
theorem PermStep.keeps {e : ℕ} {s s' : Vm} {c : PermStep} {la lf : List ℕ}
    (h : Permitted (s.envs e) la lf) (hok : c.KeepsFlags e s) (hst : c.Step e s s') :
    LogGrows (c.MayWrite e s) s s' ∧ ∃ la' lf', Permitted (s'.envs e) la' lf' := by
  cases c with
  | create size perm flags =>
      obtain ⟨r, hrun⟩ := toOption_snd_eq_some.1 hst
      obtain ⟨hlog, hareas⟩ := (createVm_permitted h size perm flags hok).of_ok hrun
      exact ⟨.of_eq hlog, hareas⟩
  | protect va size perm =>
      obtain ⟨r, hrun⟩ := toOption_snd_eq_some.1 hst
      obtain ⟨hlog, hareas⟩ := (protectVm_permitted h va size perm hok).of_ok hrun
      exact ⟨hlog.mono fun _ hw => .of_notForged hw, hareas⟩
  | fault va write =>
      obtain ⟨prot, hprot, hst⟩ := Option.bind_eq_some_iff.1 hst
      obtain ⟨r, hrun⟩ := toOption_snd_eq_some.1 hst
      have harea : ∀ v, vmaLookup (s.envs e) va = .ok (some v) →
          AllowedPerm ((fault va write).huge e s) (s.vma e v).perm := by
        intro v hlook
        have hfound : foundArea s e va = some v := by
          rw [foundArea, hlook]
          rfl
        rw [PermStep.huge, hfound]
        exact h.found hlook
      have hends := pageFaultHandler_adds true prot harea fun hp =>
        pgdirFind_of_protection (hp ▸ hprot)
      obtain ⟨hlog, hareas⟩ := hends.of_ok hrun
      refine ⟨hlog.mono fun w hw => ?_, ?_⟩
      · rcases hw with hw | hw
        · exact .of_notForged hw
        · refine ⟨?_, Or.inr hw⟩
          obtain ⟨p, v, -, -, -, -, rfl⟩ := hw
          exact pteAddr_writable _
      · rcases hareas with hl | ⟨sp, hl⟩
        · exact ⟨la, lf, h.congr hl⟩
        · exact ⟨[], List.range nVma, (vmaProcInit_inv sp).congr hl, by simp⟩

/-- **No entry is forged**: in a run whose steps meet the condition, every entry that the next step
writes maps the frame that it is written for. It has no flags but those that a user may ask for, and
`PTE_PS` in an area of huge pages, unless it is an entry that is only made writable. -/
theorem perms_forge_nothing {e : ℕ} {s₀ s s' : Vm} {la lf : List ℕ} {tr : List (Vm × PermStep)}
    {c : PermStep} (h : Permitted (s₀.envs e) la lf)
    (hrun : Run (fun s c s' => PermStep.Step e s c s') s₀ tr s)
    (hmeets : Meets (fun s c => c.KeepsFlags e s) tr) (hok : c.KeepsFlags e s)
    (hst : c.Step e s s') :
    LogGrows (c.MayWrite e s) s s' := by
  have hstep : ∀ s c t, (∃ la lf, Permitted (s.envs e) la lf) → c.KeepsFlags e s →
      PermStep.Step e s c t →
      ∃ la lf, Permitted (t.envs e) la lf := by
    rintro s c t ⟨la, lf, h⟩ hok hst
    exact (PermStep.keeps h hok hst).2
  obtain ⟨la', lf', hs⟩ := hrun.invariant hstep ⟨la, lf, h⟩ hmeets
  exact (PermStep.keeps hs hok hst).1

theorem freshPage_permitted :
    Permitted ((freshPage (pteU ||| pteW)).envs 0) [0] (List.range' 1 (nVma - 1)) := by
  refine ⟨freshPage_user.lists, fun i hi => ?_⟩
  obtain rfl := List.mem_singleton.1 hi
  exact (by decide : AllowedPerm false (pteU ||| pteW))

/-- An area is created, a store fills the page of the area that was there, and the page is made
read-only. -/
theorem perms_forge_nothing_protect : ∃ s₁ s s',
    (PermStep.create 0x2000 pteW 0).Step 0 (freshPage (pteU ||| pteW)) s₁ ∧
    (PermStep.fault 0x1000 true).Step 0 s₁ s ∧ (PermStep.protect 0x1000 0x1000 pteU).Step 0 s s' ∧
    s.written.length = 2 ∧ s'.written.length = 3 ∧
    LogGrows (PermStep.MayWrite 0 s (.protect 0x1000 0x1000 pteU)) s s' := by
  have hend : ((PermStep.exec 0 (freshPage (pteU ||| pteW)) (.create 0x2000 pteW 0)).any fun s₁ =>
      (PermStep.exec 0 s₁ (.fault 0x1000 true)).any fun s => s.written.length == 2 &&
        (PermStep.exec 0 s (.protect 0x1000 0x1000 pteU)).any
          fun s' => s'.written.length == 3) = true := by
    decide +kernel
  obtain ⟨s₁, hs₁, hrest⟩ := (Option.any_eq_true _ _).1 hend
  obtain ⟨s, hs, hrest⟩ := (Option.any_eq_true _ _).1 hrest
  obtain ⟨hlen, hrest⟩ := Bool.and_eq_true_iff.1 hrest
  obtain ⟨s', hs', hlen'⟩ := (Option.any_eq_true _ _).1 hrest
  refine ⟨s₁, s, s', hs₁, hs, hs', beq_iff_eq.1 hlen, beq_iff_eq.1 hlen', ?_⟩
  refine perms_forge_nothing freshPage_permitted (((Run.nil _).snoc hs₁).snoc hs) (fun p hp => ?_)
    (fun _ => by decide) hs'
  rcases List.mem_append.1 hp with hp | hp
  · obtain rfl := List.mem_singleton.1 hp
    exact fun _ => by decide
  · obtain rfl := List.mem_singleton.1 hp
    exact True.intro

end Jos
