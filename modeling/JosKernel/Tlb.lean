/-
**What the TLB still holds.**

The TLB of a CPU caches entries of the page tables of `curenv`, and forgets one only when
`tlb_invalidate` names its page. Of the functions that write entries only `page_remove` calls it.
`page_insert` leaves out `page_remove` when the frame stays the same, so an entry can lose
permissions that the TLB still grants.

An entry of the directory is also the entry of a page in the window at `UVPT`, and one `invlpg` is
not enough when it changes.

Main definitions:

* `Jos.Tlb`, `Jos.Core`, `Jos.tlbInvalidate` — the TLB of a CPU;
* `Jos.pageRemoveOn`, `Jos.pageInsertOn`, `Jos.changePermOn`, `Jos.removePagesOn` — the functions
  with the TLB;
* `Jos.Tlb.Fresh` — **no entry of the TLB is stale**.

Main results:

* `Jos.pageRemoveOn_vm`, `Jos.pageInsertOn_vm`, `Jos.changePermOn_vm`, `Jos.removePagesOn_vm` — on
  the memory these are the functions without the TLB.
-/

import JosKernel.FrameAllocFree
import JosKernel.Vma
import JosKernel.Walks

set_option relaxedAutoImplicit false
set_option autoImplicit false

namespace Jos

open Outcome

/-! ### The TLB -/

/-- **The TLB**: the entries cached for the 4 KB pages and for the 4 MB pages, by number. -/
structure Tlb where
  small : ℕ → Option (BitVec 32)
  huge : ℕ → Option (BitVec 32)

/-- `invlpg(va)`. -/
def Tlb.invlpg (t : Tlb) (va : BitVec 32) : Tlb where
  small := Function.update t.small (vpn va) none
  huge := Function.update t.huge (pdx va) none

/-- A CPU: the memory it sees, its `curenv` and its TLB. -/
structure Core where
  vm : Vm
  curenv : Option ℕ
  tlb : Tlb

/-- **`tlb_invalidate(pgdir, va)`.** -/
def tlbInvalidate (c : Core) (pgdir : Option ℕ) (va : BitVec 32) : Except Crash Core :=
  if pgdir = none then throw (.panic "pgdir_walk: PAGE TABLE DIRECTORY NULL")
  else match c.curenv with
    | none => pure { c with tlb := c.tlb.invlpg va }
    | some e => pure (if c.vm.pgdir e = pgdir then { c with tlb := c.tlb.invlpg va } else c)

/-! ### The functions with the TLB -/

/-- **`page_remove(pgdir, va)`**, with its last line. -/
def pageRemoveOn (c : Core) (pgdir : Option ℕ) (va : BitVec 32) : Except Crash Core := do
  let s ← pageRemove c.vm pgdir va
  let pp ← pageLookup c.vm pgdir va
  match pp with
  | none => pure c
  | some _ => tlbInvalidate { c with vm := s } pgdir va

/-- **`page_insert(pgdir, pp, va, perm)`.** -/
def pageInsertOn (c : Core) (pgdir pp : Option ℕ) (va perm : BitVec 32) :
    Except Crash (Bool × Core) :=
  match pgdir, pp with
  | none, _ => throw (.panic "pgdir_walk: PAGE TABLE DIRECTORY NULL")
  | _, none => throw (.panic "pgdir_walk: PAGE_INFO IS NULL")
  | some dir, some pp => do
      if isPresent perm then throw (.panic "page_insert: PTE_P already set in perms!")
      let (pte, s) ← pgdirWalk c.vm (some dir) va (if isHuge perm then .huge else .normal)
      let c := { c with vm := s }
      match pte with
      | none => pure (false, c)
      | some pte => do
          let reIns := pteAddr (c.vm.pte pte) ≠ page2pa pp
          let c ← if isPresent (c.vm.pte pte) ∧ reIns then pageRemoveOn c (some dir) va else pure c
          let s := if reIns then c.vm.setRef pp (c.vm.ref pp + 1) else c.vm
          pure (true, { c with vm := s.writePte pte va pp (page2pa pp ||| perm ||| pteP) })

/-- The loop of `vma_change_perm`, from the page `i` on. -/
def changePermOn (e : ℕ) (va perm : BitVec 32) : ℕ → ℕ → Core → Except Crash Core
  | 0, _, c => pure c
  | n + 1, i, c => do
      let pte ← pgdirFind c.vm (c.vm.pgdir e) (pageAt va i)
      match pte with
      | none => pure c
      | some pte =>
          if isPresent (c.vm.pte pte) then do
            let pp ← pageLookup c.vm (c.vm.pgdir e) (pageAt va i)
            match pp with
            | none => pure c
            | some pp => do
                let (_, c) ← pageInsertOn c (c.vm.pgdir e) (some pp) (pageAt va i) perm
                changePermOn e va perm n (i + 1) c
          else changePermOn e va perm n (i + 1) c

/-- **`vma_change_perm(v, perm)`** in the environment `e`. -/
def vmaChangePermOn (c : Core) (e v : ℕ) (perm : BitVec 32) : Except Crash Core :=
  let s := c.vm.modSpace e fun sp => sp.modVma v fun v => { v with perm := perm }
  changePermOn e (s.vma e v).va perm (pageCount (s.vma e v).len) 0 { c with vm := s }

/-- The loop of `vma_remove_pages`, from the page `i` on. -/
def removePagesOn (e : ℕ) (va : BitVec 32) : ℕ → ℕ → Core → Except Crash Core
  | 0, _, c => pure c
  | n + 1, i, c => do
      let pte ← pgdirFind c.vm (c.vm.pgdir e) (pageAt va i)
      match pte with
      | none => pure c
      | some pte => do
          let c ←
            if isPresent (c.vm.pte pte) then do
              let c ← pageRemoveOn c (c.vm.pgdir e) (pageAt va i)
              let s ← dropPages c.vm e (if isHuge (c.vm.pte pte) then 1024 else 1)
              pure { c with vm := s }
            else pure c
          removePagesOn e va n (i + 1) c

/-- **`vma_remove_pages(e, va, size)`.** -/
def vmaRemovePagesOn (c : Core) (e : ℕ) (va size : BitVec 32) : Except Crash Core :=
  removePagesOn e va (pageCount size) 0 c

/-! ### The memory does not depend on the TLB -/

section Erase

variable {α β α' β' : Type} {π : α → β} {ρ : α' → β'}

/-- Up to `π` the two computations are the same. -/
def Erases (π : α → β) (x : Except Crash α) (y : Except Crash β) : Prop := x.map π = y

theorem Erases.bind {x : Except Crash α} {y : Except Crash β} {f : α → Except Crash α'}
    {g : β → Except Crash β'} (h : Erases π x y) (hfg : ∀ a, Erases ρ (f a) (g (π a))) :
    Erases ρ (x >>= f) (y >>= g) := by
  cases x with
  | error a =>
      obtain rfl : Except.error a = y := h
      rfl
  | ok c =>
      obtain rfl : Except.ok (π c) = y := h
      exact hfg c

/-- A run without the TLB is one with it. -/
theorem Erases.of_ok {π : α → β} {x : Except Crash α} {b : β} (h : Erases π x (.ok b)) :
    ∃ a, x = .ok a ∧ π a = b := by
  cases x with
  | error c => exact nomatch h
  | ok a => exact ⟨a, rfl, Except.ok.inj h⟩

theorem Erases.same {x : Except Crash α} {f : α → Except Crash α'} {g : α → Except Crash β'}
    (hfg : ∀ a, Erases ρ (f a) (g a)) : Erases ρ (x >>= f) (x >>= g) := by
  cases x with
  | error a => rfl
  | ok c => exact hfg c

theorem Erases.ite {p : Prop} [Decidable p] {x x' : Except Crash α} {y y' : Except Crash β}
    (h : Erases π x y) (h' : Erases π x' y') :
    Erases π (if p then x else x') (if p then y else y') := by
  split
  · exact h
  · exact h'

end Erase

theorem tlbInvalidate_vm (c : Core) {pgdir : Option ℕ} (hd : pgdir ≠ none) (va : BitVec 32) :
    Erases Core.vm (tlbInvalidate c pgdir va) (.ok c.vm) := by
  unfold tlbInvalidate
  rw [if_neg hd]
  cases c.curenv with
  | none => rfl
  | some e =>
      dsimp only
      split
      · rfl
      · rfl

theorem pageRemoveOn_vm (c : Core) (pgdir : Option ℕ) (va : BitVec 32) :
    Erases Core.vm (pageRemoveOn c pgdir va) (pageRemove c.vm pgdir va) := by
  by_cases hd : pgdir = none
  · subst hd
    rfl
  · unfold pageRemoveOn
    cases hl : pageLookup c.vm pgdir va with
    | error a =>
        have hr : pageRemove c.vm pgdir va = .error a := by
          unfold pageRemove
          rw [if_neg hd, hl]
          rfl
        rw [hr]
        rfl
    | ok pp =>
        cases pp with
        | none =>
            have hr : pageRemove c.vm pgdir va = .ok c.vm := by
              unfold pageRemove
              rw [if_neg hd, hl]
              rfl
            rw [hr]
            rfl
        | some pp =>
            cases hr : pageRemove c.vm pgdir va with
            | error a => rfl
            | ok s => exact tlbInvalidate_vm { c with vm := s } hd va

theorem pageInsertOn_vm (c : Core) (pgdir pp : Option ℕ) (va perm : BitVec 32) :
    Erases (Prod.map id Core.vm) (pageInsertOn c pgdir pp va perm)
      (pageInsert c.vm pgdir pp va perm) := by
  cases pgdir with
  | none => rfl
  | some dir =>
      cases pp with
      | none => rfl
      | some pp =>
          unfold pageInsertOn pageInsert
          refine Erases.ite rfl (Erases.same fun r => ?_)
          obtain ⟨pte, s⟩ := r
          cases pte with
          | none => rfl
          | some pte =>
              exact Erases.ite (Erases.bind (pageRemoveOn_vm _ _ _) fun c => rfl) rfl

theorem changePermOn_vm (e : ℕ) (va perm : BitVec 32) : ∀ (n i : ℕ) (c : Core),
    Erases Core.vm (changePermOn e va perm n i c) (changePermFrom e va perm n i c.vm)
  | 0, _, _ => rfl
  | n + 1, i, c => by
      rw [changePermOn, changePermFrom]
      refine Erases.same fun pte => ?_
      cases pte with
      | none => rfl
      | some pte =>
          refine Erases.ite (Erases.same fun pp => ?_) (changePermOn_vm e va perm n (i + 1) c)
          cases pp with
          | none => rfl
          | some pp =>
              exact Erases.bind (pageInsertOn_vm _ _ _ _ _)
                fun r => changePermOn_vm e va perm n (i + 1) r.2

theorem removePagesOn_vm (e : ℕ) (va : BitVec 32) : ∀ (n i : ℕ) (c : Core),
    Erases Core.vm (removePagesOn e va n i c) (removePagesFrom e va n i c.vm)
  | 0, _, _ => rfl
  | n + 1, i, c => by
      rw [removePagesOn, removePagesFrom]
      refine Erases.same fun pte => ?_
      cases pte with
      | none => rfl
      | some pte =>
          refine Erases.ite (Erases.bind (pageRemoveOn_vm _ _ _) fun c => ?_)
            (removePagesOn_vm e va n (i + 1) c)
          exact Erases.same fun s => removePagesOn_vm e va n (i + 1) { c with vm := s }

/-! ### What `page_free` leaves alone -/

/-- The bytes of the frames that are not marked `POISON_AFTER_FREE` stay, and so does the absence of
the mark. -/
structure KeepsMem (m m' : Mm) : Prop where
  npages : m'.npages = m.npages
  mem : ∀ f, (m.pages f).has poisonAfterFree = false → (m'.pages f).has poisonAfterFree = false ∧
    m'.mem f = m.mem f

namespace KeepsMem

variable {m m' m'' : Mm}

theorem refl (m : Mm) : KeepsMem m m := ⟨rfl, fun _ h => ⟨h, rfl⟩⟩

theorem trans (h : KeepsMem m m') (h' : KeepsMem m' m'') : KeepsMem m m'' := by
  refine ⟨h'.npages.trans h.npages, fun f hf => ?_⟩
  obtain ⟨h₁, h₂⟩ := h.mem f hf
  obtain ⟨h₃, h₄⟩ := h'.mem f h₁
  exact ⟨h₃, h₄.trans h₂⟩

/-- A change of one `page_info` that does not set the mark. -/
theorem modPage (m : Mm) (pp : ℕ) {g : PageInfo → PageInfo}
    (hg : ∀ p, p.has poisonAfterFree = false → (g p).has poisonAfterFree = false) :
    KeepsMem m (m.modPage pp g) := by
  refine ⟨rfl, fun f hf => ⟨?_, rfl⟩⟩
  by_cases hpp : f = pp
  · subst hpp
    rw [Mm.modPage_self]
    exact hg _ hf
  · rw [Mm.modPage_of_ne _ _ hpp]
    exact hf

end KeepsMem

/-- A frame without the mark is not written to. -/
theorem KeepsMarked.keepsMem {m m' : Mm} (h : KeepsMarked m m') : KeepsMem m m' := by
  refine ⟨h.npages, fun f hf => ?_⟩
  rcases h.mem f with ⟨hmem, hmark⟩ | ⟨hset, -⟩
  · refine ⟨?_, hmem⟩
    by_contra hc
    rw [hmark (by simpa using hc)] at hf
    exact nomatch hf
  · rw [hset] at hf
    exact nomatch hf

/-- **`page_free` writes to no frame that is not marked.** -/
theorem pageFree_keepsMem (m : Mm) (pp : ℕ) : Ends (fun _ => True) (KeepsMem m) (pageFree m pp) :=
  (pageFree_keepsMarked m pp).post fun _ h => h.keepsMem

theorem releasePage_keepsMem (s : Vm) (pp : ℕ) :
    Ends (fun _ => True) (fun s' => KeepsMem s.mm s'.mm ∧ s'.envs = s.envs) (releasePage s pp) := by
  unfold releasePage
  rw [ends_bind]
  refine (lruRemoveElList_lruOnly s.mm pp).post ?_
  rintro ⟨found, m₁⟩ hlru
  have hlru : LruOnly s.mm m₁ := hlru
  have hkeep : KeepsMem s.mm m₁ := by
    refine ⟨hlru.npages, fun f hf => ⟨?_, congrFun hlru.mem f⟩⟩
    rw [PageInfo.has, hlru.flags]
    exact hf
  rw [ends_bind]
  exact (pageFree_keepsMem m₁ pp).post fun m₂ h₂ => ⟨hkeep.trans h₂, rfl⟩

/-! ### Stale entries -/

/-- The entry `w` has the frame of the cached entry `c`, and every permission that `c` grants. -/
def Covers (c w : BitVec 32) : Prop :=
  pgnum w = pgnum c ∧ (isWritable c = true → isWritable w = true) ∧
    (isUser c = true → isUser w = true)

/-- **No entry of the TLB is stale**: the page still has an entry of the same size, present and with
the frame and the permissions of the cached one. -/
structure Tlb.Fresh (t : Tlb) (m : Mm) (d : ℕ) : Prop where
  small : ∀ q < 2 ^ 20, ∀ c, t.small q = some c →
    ∃ w, m.leaf d q = some (w, false) ∧ isPresent w = true ∧ Covers c w
  huge : ∀ i < 1024, ∀ c, t.huge i = some c →
    isPresent (m.word d i) = true ∧ isHuge (m.word d i) = true ∧ Covers c (m.word d i)

/-- The frames that a walk of the directory `d` reads: the directory and its page tables. -/
def Mm.WalkFrame (m : Mm) (d g : ℕ) : Prop :=
  g = d ∨ ∃ i < 1024, m.HasTable d i ∧ pgnum (m.word d i) = g

/-- The page tables of the directory `d`: `pgdir_walk` does not mark them for poisoning, and those
below `UTOP` are frames of their own. -/
structure TlbTables (m : Mm) (d : ℕ) : Prop where
  unmarked : ∀ g, m.WalkFrame d g → (m.pages g).has poisonAfterFree = false
  user : ∀ i < pdx uTop, m.HasTable d i → pgnum (m.word d i) ≠ d
  apart : ∀ i < pdx uTop, ∀ j < 1024, m.HasTable d i → m.HasTable d j →
    pgnum (m.word d i) = pgnum (m.word d j) → i = j

/-- The words that a walk reads are as before, but for those that `f` replaces. -/
def Rewritten (m m' : Mm) (d : ℕ) (f : PtePtr → Option (BitVec 32)) : Prop :=
  ∀ g, m.WalkFrame d g → ∀ k, m'.word g k = (f ⟨g, k⟩).getD (m.word g k)

namespace Rewritten

variable {m m' : Mm} {d i q : ℕ} {f : PtePtr → Option (BitVec 32)}

theorem refl (m : Mm) (d : ℕ) : Rewritten m m d fun _ => none := fun _ _ _ => rfl

theorem word_dir (h : Rewritten m m' d f) : m'.word d i = (f ⟨d, i⟩).getD (m.word d i) :=
  h d (Or.inl rfl) i

theorem word_dir_same (h : Rewritten m m' d f) (hf : f ⟨d, i⟩ = none) :
    m'.word d i = m.word d i := by
  rw [h.word_dir, hf]
  rfl

/-- What a walk finds now, when the entry of the directory is as before. -/
theorem leaf_small (h : Rewritten m m' d f) (hq : q < 2 ^ 20) (hf : f ⟨d, q / 1024⟩ = none)
    {w : BitVec 32} (hleaf : m.leaf d q = some (w, false)) :
    m'.leaf d q = some ((f (m.leafPtr d q)).getD w, false) := by
  obtain ⟨hP, hH, hw⟩ := Mm.leaf_eq_some hleaf
  have hdir := h.word_dir_same hf
  have hword :=
    h (pgnum (m.word d (q / 1024))) (Or.inr ⟨q / 1024, by omega, ⟨hP, hH⟩, rfl⟩) (q % 1024)
  rw [Mm.leafPtr_small hH] at hw ⊢
  unfold Mm.leaf
  rw [hdir, if_pos hP, if_neg (by rw [hH]; exact Bool.false_ne_true), hword, ← hw]

end Rewritten

/-- The place of an entry below `UTOP` is an entry of the directory only for a 4 MB page. -/
theorem TlbTables.leafPtr_dir {m : Mm} {d q i : ℕ} (h : TlbTables m d) (hq : q / 1024 < pdx uTop)
    (hP : isPresent (m.word d (q / 1024)) = true) (heq : m.leafPtr d q = ⟨d, i⟩) :
    isHuge (m.word d (q / 1024)) = true ∧ i = q / 1024 := by
  cases hH : isHuge (m.word d (q / 1024)) with
  | true =>
      rw [Mm.leafPtr_huge hH] at heq
      exact ⟨rfl, (congrArg PtePtr.idx heq).symm⟩
  | false =>
      rw [Mm.leafPtr_small hH] at heq
      exact (h.user _ hq ⟨hP, hH⟩ (congrArg PtePtr.frame heq)).elim

/-- A 4 KB page below `UTOP` shares its entry with no other page. -/
theorem TlbTables.leafPtr_inj {m : Mm} {d q q' : ℕ} (h : TlbTables m d) (hq : q / 1024 < pdx uTop)
    (hq' : q' < 2 ^ 20) (ht : m.HasTable d (q / 1024)) (ht' : m.HasTable d (q' / 1024))
    (heq : m.leafPtr d q' = m.leafPtr d q) : q' = q := by
  rw [Mm.leafPtr_small ht.2, Mm.leafPtr_small ht'.2] at heq
  have hi := h.apart _ hq _ (by omega) ht ht' (congrArg PtePtr.frame heq).symm
  have hj : q' % 1024 = q % 1024 := congrArg PtePtr.idx heq
  omega

/-- Two memories with the same page tables. -/
def SameTables (m m' : Mm) (d : ℕ) : Prop :=
  ∀ i, (m'.HasTable d i ↔ m.HasTable d i) ∧ (m.HasTable d i → m'.word d i = m.word d i)

theorem SameTables.walkFrame_iff {m m' : Mm} {d g : ℕ} (h : SameTables m m' d) :
    m'.WalkFrame d g ↔ m.WalkFrame d g := by
  refine or_congr Iff.rfl ⟨?_, ?_⟩
  · rintro ⟨i, hi, htab, rfl⟩
    have htab := (h i).1.1 htab
    exact ⟨i, hi, htab, by rw [(h i).2 htab]⟩
  · rintro ⟨i, hi, htab, rfl⟩
    exact ⟨i, hi, (h i).1.2 htab, by rw [(h i).2 htab]⟩

theorem TlbTables.congr {m m' : Mm} {d : ℕ} (h : TlbTables m d) (hs : SameTables m m' d)
    (hmark : ∀ g, m.WalkFrame d g → (m'.pages g).has poisonAfterFree = false) : TlbTables m' d where
  unmarked g hg := hmark g (hs.walkFrame_iff.1 hg)
  user i hi ht := by
    have ht := (hs i).1.1 ht
    rw [(hs i).2 ht]
    exact h.user i hi ht
  apart i hi j hj hti htj := by
    have hti := (hs i).1.1 hti
    have htj := (hs j).1.1 htj
    rw [(hs i).2 hti, (hs j).2 htj]
    exact h.apart i hi j hj hti htj

/-! ### `page_remove` -/

/-- The entry of the page at `va` becomes 0. -/
def zeroAt (p : PtePtr) (p' : PtePtr) : Option (BitVec 32) := if p' = p then some 0 else none

theorem pageRemove_absent {s : Vm} {d : ℕ} {va : BitVec 32} (hP : s.mm.leaf d (vpn va) = none) :
    pageLookup s (some d) va = .ok none ∧ pageRemove s (some d) va = .ok s := by
  have hfind : pgdirFind s (some d) va = .ok none := by
    unfold pgdirFind
    dsimp only
    rw [pdx_eq]
    exact if_neg (by rw [Vm.pte, Mm.leaf_eq_none.1 hP]; exact Bool.false_ne_true)
  have hlookup : pageLookup s (some d) va = .ok none := by
    unfold pageLookup
    rw [if_neg (fun hc => nomatch hc), hfind]
    rfl
  refine ⟨hlookup, ?_⟩
  unfold pageRemove
  rw [if_neg (fun hc => nomatch hc), hlookup]
  rfl

/-- **`page_remove`** drops the page, and then clears the entry. -/
theorem pageRemove_cleared {s : Vm} {d : ℕ} {va : BitVec 32}
    (hmark : ∀ g, s.mm.WalkFrame d g → (s.mm.pages g).has poisonAfterFree = false) :
    Ends (fun _ => True)
      (fun s' => s'.envs = s.envs ∧ ((s.mm.leaf d (vpn va) = none ∧ s' = s) ∨
        (isPresent (s.mm.word d (vpn va / 1024)) = true ∧ ∃ s₁ : Vm, KeepsMem s.mm s₁.mm ∧
          s'.mm = (s₁.setPte (s.mm.leafPtr d (vpn va)) 0).mm)))
      (pageRemove s (some d) va) := by
  refine pageRemove_rule (P := fun s₂ => isPresent (s.mm.word d (vpn va / 1024)) = true ∧
    KeepsMem s.mm s₂.mm ∧ s₂.envs = s.envs)
    (fun hnone => ⟨rfl, Or.inl ⟨hnone, rfl⟩⟩) (fun hP pp _ _ _ => ?_) fun s₂ h₂ => ?_
  · generalize hs₁ : s.setRef pp (s.ref pp - 1) = s₁
    have hkeep₁ : KeepsMem s.mm s₁.mm ∧ s₁.envs = s.envs := by
      rw [← hs₁]
      exact ⟨@KeepsMem.modPage s.mm pp (fun p => { p with ppRef := s.ref pp - 1 }) fun _ h => h,
        rfl⟩
    refine ends_ite (fun _ => ?_) fun _ => ⟨hP, hkeep₁⟩
    exact (releasePage_keepsMem s₁ pp).post fun s₂ h₂ =>
      ⟨hP, hkeep₁.1.trans h₂.1, h₂.2.trans hkeep₁.2⟩
  · obtain ⟨hP, hkeep, henvs⟩ := h₂
    have hword : s₂.mm.word d (vpn va / 1024) = s.mm.word d (vpn va / 1024) :=
      Mm.word_of_mem (hkeep.mem d (hmark d (Or.inl rfl))).2 _
    have hptr : s₂.mm.leafPtr d (vpn va) = s.mm.leafPtr d (vpn va) := by
      rw [Mm.leafPtr, Mm.leafPtr, hword]
    refine ⟨fun hnone => ?_, fun _ => ⟨henvs, Or.inr ⟨hP, s₂, hkeep, ?_⟩⟩⟩
    · rw [Mm.leaf_eq_none, hword, hP] at hnone
      exact nomatch hnone
    · rw [hptr]

/-- **`page_remove`** of a page that has an entry. -/
theorem pageRemove_rewritten {s : Vm} {d : ℕ} {va : BitVec 32}
    (hmark : ∀ g, s.mm.WalkFrame d g → (s.mm.pages g).has poisonAfterFree = false) :
    Ends (fun _ => True)
      (fun s' => s'.envs = s.envs ∧ (∀ g, s.mm.WalkFrame d g →
        (s'.mm.pages g).has poisonAfterFree = false) ∧
        (isPresent (s.mm.word d (vpn va / 1024)) = true →
          Rewritten s.mm s'.mm d (zeroAt (s.mm.leafPtr d (vpn va)))))
      (pageRemove s (some d) va) := by
  refine (pageRemove_cleared hmark).post ?_
  rintro s' ⟨henvs, ⟨hnone, rfl⟩ | ⟨-, s₁, hkeep, hmm⟩⟩
  · refine ⟨henvs, hmark, fun hP => ?_⟩
    rw [Mm.leaf_eq_none.1 hnone] at hP
    exact nomatch hP
  · refine ⟨henvs, fun g hg => ?_, fun _ g hg k => ?_⟩
    · rw [hmm]
      exact (hkeep.mem g (hmark g hg)).1
    · rw [hmm, zeroAt]
      refine (Vm.word_setPte ..).trans ?_
      rw [Mm.word_of_mem (hkeep.mem g (hmark g hg)).2 k]
      by_cases hgk : g = (s.mm.leafPtr d (vpn va)).frame ∧ k = (s.mm.leafPtr d (vpn va)).idx
      · rw [if_pos hgk, if_pos (by rw [hgk.1, hgk.2])]
        rfl
      · rw [if_neg hgk, if_neg fun hc => hgk ⟨congrArg PtePtr.frame hc, congrArg PtePtr.idx hc⟩]
        rfl

/-- What does not change on a CPU, and the marks of the frames that a walk of `d` reads. -/
structure SameCore (c c' : Core) (d : ℕ) : Prop where
  curenv : c'.curenv = c.curenv
  pgdir : ∀ e, c'.vm.pgdir e = c.vm.pgdir e
  marks : ∀ g, c.vm.mm.WalkFrame d g → (c'.vm.mm.pages g).has poisonAfterFree = false

/-- **`page_remove` with the TLB**, on the directory of `curenv`. -/
theorem pageRemoveOn_ends {c : Core} {e d : ℕ} {va : BitVec 32} (hcur : c.curenv = some e)
    (hd : c.vm.pgdir e = some d)
    (hmark : ∀ g, c.vm.mm.WalkFrame d g → (c.vm.mm.pages g).has poisonAfterFree = false) :
    Ends (fun _ => True)
      (fun c' => SameCore c c' d ∧
        ((c.vm.mm.leaf d (vpn va) = none ∧ c' = c) ∨
          (isPresent (c.vm.mm.word d (vpn va / 1024)) = true ∧ c'.tlb = c.tlb.invlpg va ∧
            Rewritten c.vm.mm c'.vm.mm d (zeroAt (c.vm.mm.leafPtr d (vpn va))))))
      (pageRemoveOn c (some d) va) := by
  unfold pageRemoveOn
  cases hP : isPresent (c.vm.mm.word d (vpn va / 1024)) with
  | false =>
      have hleaf := Mm.leaf_eq_none.2 hP
      obtain ⟨hlookup, hremove⟩ := pageRemove_absent hleaf
      rw [hlookup, hremove]
      exact ⟨⟨rfl, fun _ => rfl, hmark⟩, Or.inl ⟨hleaf, rfl⟩⟩
  | true =>
      rw [ends_bind]
      refine (pageRemove_rewritten hmark).post fun s' hs' => ?_
      obtain ⟨henvs, hmarks, hrew⟩ := hs'
      have hpgdir : ∀ e, s'.pgdir e = c.vm.pgdir e := by
        intro e
        rw [Vm.pgdir, henvs]
        rfl
      have hinv : tlbInvalidate { c with vm := s' } (some d)
          va = .ok { c with vm := s', tlb := c.tlb.invlpg va } := by
        unfold tlbInvalidate
        rw [if_neg (fun hc => nomatch hc), hcur]
        dsimp only
        rw [if_pos ((hpgdir e).trans hd)]
        rfl
      rw [ends_bind]
      unfold pageLookup
      rw [if_neg (fun hc => nomatch hc), ends_bind]
      refine (pgdirFind_leaf c.vm d va).post ?_
      rintro r (⟨rfl, hnone⟩ | ⟨rfl, -⟩)
      · rw [Mm.leaf_eq_none.1 hnone] at hP
        exact nomatch hP
      · dsimp only
        rw [ends_bind]
        refine (pa2page_ends _ _).post fun pp _ => ?_
        rw [ends_pure, hinv]
        exact ⟨⟨rfl, hpgdir, hmarks⟩, Or.inr ⟨rfl, rfl, hrew hP⟩⟩

/-! ### Pages that are removed -/

/-- The TLB after an `invlpg` for each of the pages. -/
def Tlb.dropAll (t : Tlb) (qs : List ℕ) : Tlb where
  small q := if q ∈ qs then none else t.small q
  huge i := if i ∈ qs.map (· / 1024) then none else t.huge i

/-- The entries of the pages become 0. -/
def Mm.zeroAll (m : Mm) (d : ℕ) (qs : List ℕ) (p : PtePtr) : Option (BitVec 32) :=
  if p ∈ qs.map (m.leafPtr d) then some 0 else none

/-- **The state after the pages have been removed.** -/
structure RemovedAll (c₀ c : Core) (d : ℕ) (qs : List ℕ) : Prop where
  same : SameCore c₀ c d
  tlb : c.tlb = c₀.tlb.dropAll qs
  words : Rewritten c₀.vm.mm c.vm.mm d (c₀.vm.mm.zeroAll d qs)
  low : ∀ q ∈ qs, q / 1024 < pdx uTop ∧ isPresent (c₀.vm.mm.word d (q / 1024)) = true

/-- The condition for it: no other page that is cached shares an entry with one of the pages. -/
def RemoveFits (c : Core) (d : ℕ) (qs : List ℕ) : Prop :=
  ∀ q ∈ qs, ∀ q' < 2 ^ 20, q' ∉ qs → c.tlb.small q' ≠ none →
    c.vm.mm.leafPtr d q' ≠ c.vm.mm.leafPtr d q

namespace RemovedAll

variable {c₀ c : Core} {d : ℕ} {qs : List ℕ}

/-- An entry of the directory changes only for a 4 MB page that is removed. -/
theorem zeroAll_dir (h : RemovedAll c₀ c d qs) (ht : TlbTables c₀.vm.mm d) {i : ℕ}
    (hi : ¬ (isHuge (c₀.vm.mm.word d i) = true ∧ i ∈ qs.map (· / 1024))) :
    c₀.vm.mm.zeroAll d qs ⟨d, i⟩ = none := by
  unfold Mm.zeroAll
  rw [if_neg]
  intro hmem
  obtain ⟨q, hq, heq⟩ := List.mem_map.1 hmem
  obtain ⟨hlow, hP⟩ := h.low q hq
  obtain ⟨hH, rfl⟩ := ht.leafPtr_dir hlow hP heq
  exact hi ⟨hH, List.mem_map.2 ⟨q, hq, rfl⟩⟩

/-- **After the removal no entry of the TLB is stale if and only if the condition holds.** -/
theorem fresh_iff (h : RemovedAll c₀ c d qs) (ht : TlbTables c₀.vm.mm d)
    (hf : c₀.tlb.Fresh c₀.vm.mm d) :
    c.tlb.Fresh c.vm.mm d ↔ RemoveFits c₀ d qs := by
  have hleaf : ∀ q < 2 ^ 20, ∀ w, c₀.vm.mm.leaf d q = some (w, false) →
      c.vm.mm.leaf d q = some ((c₀.vm.mm.zeroAll d qs (c₀.vm.mm.leafPtr d q)).getD w, false) := by
    intro q hq w hw
    refine h.words.leaf_small hq (h.zeroAll_dir ht fun hc => ?_) hw
    rw [(Mm.leaf_eq_some hw).2.1] at hc
    exact nomatch hc.1
  rw [h.tlb]
  constructor
  · intro hf' q hq q' hq' hnot hsmall heq
    obtain ⟨e, he⟩ := Option.ne_none_iff_exists'.1 hsmall
    obtain ⟨w, hw, -, -⟩ := hf.small q' hq' e he
    obtain ⟨w', hw', hP', -⟩ := hf'.small q' hq' e ((if_neg hnot).trans he)
    rw [hleaf q' hq' w hw, Mm.zeroAll, if_pos (List.mem_map.2 ⟨q, hq, heq.symm⟩)] at hw'
    obtain rfl := (Prod.mk.inj (Option.some.inj hw')).1
    exact absurd hP' (show ¬ isPresent 0 = true by decide)
  · intro hfit
    refine ⟨fun q hq e he => ?_, fun i hi e he => ?_⟩
    · have hnot : q ∉ qs := fun hmem => nomatch (if_pos hmem).symm.trans he
      have he : c₀.tlb.small q = some e := (if_neg hnot).symm.trans he
      obtain ⟨w, hw, hP, hcov⟩ := hf.small q hq e he
      refine ⟨w, ?_, hP, hcov⟩
      rw [hleaf q hq w hw, Mm.zeroAll, if_neg]
      · rfl
      · intro hmem
        obtain ⟨p, hp, heq⟩ := List.mem_map.1 hmem
        exact hfit p hp q hq hnot (by rw [he]; exact fun hc => nomatch hc) heq.symm
    · have hnot : i ∉ qs.map (· / 1024) := fun hmem => nomatch (if_pos hmem).symm.trans he
      have he : c₀.tlb.huge i = some e := (if_neg hnot).symm.trans he
      rw [h.words.word_dir_same (h.zeroAll_dir ht fun hc => hnot hc.2)]
      exact hf.huge i hi e he

theorem start (ht : TlbTables c₀.vm.mm d) : RemovedAll c₀ c₀ d [] where
  same := ⟨rfl, fun _ => rfl, ht.unmarked⟩
  tlb := rfl
  words := Rewritten.refl _ d
  low _ hq := (List.not_mem_nil hq).elim

/-- The page tables are those from before. -/
theorem sameTables (h : RemovedAll c₀ c d qs) (ht : TlbTables c₀.vm.mm d) :
    SameTables c₀.vm.mm c.vm.mm d := by
  intro i
  by_cases hi : isHuge (c₀.vm.mm.word d i) = true ∧ i ∈ qs.map (· / 1024)
  · refine ⟨⟨fun hc => ?_, fun hc => ?_⟩, fun hc => ?_⟩
    · obtain ⟨q, hq, rfl⟩ := List.mem_map.1 hi.2
      have hzero : c.vm.mm.word d (q / 1024) = 0 := by
        rw [h.words.word_dir, Mm.zeroAll, if_pos (List.mem_map.2 ⟨q, hq, Mm.leafPtr_huge hi.1⟩)]
        rfl
      have hP := hc.1
      rw [hzero] at hP
      exact absurd hP (by decide)
    · rw [hc.2] at hi
      exact nomatch hi.1
    · rw [hc.2] at hi
      exact nomatch hi.1
  · have hsame := h.words.word_dir_same (h.zeroAll_dir ht hi)
    refine ⟨?_, fun _ => hsame⟩
    rw [Mm.HasTable, Mm.HasTable, hsame]

/-- A page that has not been removed, and is not part of a 4 MB page that has been, is found as
before. -/
theorem leaf_rest (h : RemovedAll c₀ c d qs) (ht : TlbTables c₀.vm.mm d) {q : ℕ}
    (hlow : q / 1024 < pdx uTop) (hq : q ∉ qs)
    (hhuge : isHuge (c₀.vm.mm.word d (q / 1024)) = true → q / 1024 ∉ qs.map (· / 1024)) :
    c.vm.mm.leaf d q = c₀.vm.mm.leaf d q ∧ c.vm.mm.leafPtr d q = c₀.vm.mm.leafPtr d q ∧
      c.vm.mm.word d (q / 1024) = c₀.vm.mm.word d (q / 1024) := by
  have hzero := h.zeroAll_dir ht (i := q / 1024) fun hc => hhuge hc.1 hc.2
  have hdir := h.words.word_dir_same hzero
  have hlow' : q < 2 ^ 20 := PtInv.lt_pow_of_low hlow
  refine ⟨?_, by rw [Mm.leafPtr, Mm.leafPtr, hdir], hdir⟩
  cases hleaf : c₀.vm.mm.leaf d q with
  | none =>
      rw [Mm.leaf_eq_none] at hleaf ⊢
      rw [hdir, hleaf]
  | some p =>
      obtain ⟨w, b⟩ := p
      obtain ⟨hP, hH, hw⟩ := Mm.leaf_eq_some hleaf
      cases b with
      | true =>
          rw [Mm.leafPtr_huge hH] at hw
          rw [Mm.leaf, hdir, if_pos hP, if_pos hH, ← hw]
      | false =>
          rw [h.words.leaf_small hlow' hzero hleaf, Mm.zeroAll, if_neg]
          · rfl
          · intro hmem
            obtain ⟨q', hq', heq⟩ := List.mem_map.1 hmem
            obtain ⟨hlow₁, hP₁⟩ := h.low q' hq'
            cases hH₁ : isHuge (c₀.vm.mm.word d (q' / 1024)) with
            | true =>
                rw [Mm.leafPtr_huge hH₁] at heq
                have hbad := (ht.leafPtr_dir hlow hP heq.symm).1
                rw [hH] at hbad
                exact nomatch hbad
            | false =>
                obtain rfl :=
                  ht.leafPtr_inj hlow (PtInv.lt_pow_of_low hlow₁) ⟨hP, hH⟩ ⟨hP₁, hH₁⟩ heq
                exact hq hq'

/-- **One more page is removed.** -/
theorem remove (h : RemovedAll c₀ c d qs) (ht : TlbTables c₀.vm.mm d) {e : ℕ}
    (hcur : c₀.curenv = some e) (hd : c₀.vm.pgdir e = some d) {va : BitVec 32} (hva : va < uTop)
    (hq : vpn va ∉ qs)
    (hhuge : isHuge (c₀.vm.mm.word d (vpn va / 1024)) = true → vpn va / 1024 ∉ qs.map (· / 1024))
    (hP : isPresent (c₀.vm.mm.word d (vpn va / 1024)) = true) :
    Ends (fun _ => True) (fun c' => RemovedAll c₀ c' d (qs ++ [vpn va]))
      (pageRemoveOn c (some d) va) := by
  have hlow : vpn va / 1024 < pdx uTop := pdx_eq va ▸ pdx_lt_of_lt hva
  obtain ⟨hleaf, hptr, hdir⟩ := h.leaf_rest ht hlow hq hhuge
  have hmark : ∀ g, c.vm.mm.WalkFrame d g → (c.vm.mm.pages g).has poisonAfterFree = false :=
    fun g hg =>
    h.same.marks g ((h.sameTables ht).walkFrame_iff.1 hg)
  refine (pageRemoveOn_ends (h.same.curenv.trans hcur) ((h.same.pgdir e).trans hd) hmark).post ?_
  rintro c' ⟨hsame, ⟨hnone, -⟩ | ⟨-, htlb, hwords⟩⟩
  · rw [Mm.leaf_eq_none, hdir, hP] at hnone
    exact nomatch hnone
  · refine ⟨⟨hsame.curenv.trans h.same.curenv, fun e => (hsame.pgdir e).trans (h.same.pgdir e),
      fun g hg => ?_⟩, ?_,
      fun g hg k => ?_, fun q hmem => ?_⟩
    · exact hsame.marks g ((h.sameTables ht).walkFrame_iff.2 hg)
    · rw [htlb, h.tlb, Tlb.invlpg, Tlb.dropAll, Tlb.dropAll, pdx_eq]
      refine Tlb.mk.injEq .. ▸ ⟨funext fun q => ?_, funext fun i => ?_⟩
      · by_cases hqv : q = vpn va
        · rw [hqv, Function.update_self,
            if_pos (List.mem_append_right _ (List.mem_singleton.2 rfl))]
        · rw [Function.update_of_ne hqv]
          refine if_congr ?_ rfl rfl
          rw [List.mem_append, List.mem_singleton]
          exact (or_iff_left hqv).symm
      · by_cases hiv : i = vpn va / 1024
        · rw [hiv, Function.update_self, if_pos (List.mem_map.2
            ⟨vpn va, List.mem_append_right _ (List.mem_singleton.2 rfl), rfl⟩)]
        · rw [Function.update_of_ne hiv]
          refine if_congr ?_ rfl rfl
          rw [List.map_append, List.mem_append, List.map_singleton, List.mem_singleton]
          exact (or_iff_left hiv).symm
    · have hmem : (⟨g, k⟩ : PtePtr) ∈ (qs ++ [vpn va]).map (c₀.vm.mm.leafPtr d) ↔
          ⟨g, k⟩ ∈ qs.map (c₀.vm.mm.leafPtr d) ∨ ⟨g, k⟩ = c₀.vm.mm.leafPtr d (vpn va) := by
        rw [List.map_append, List.map_singleton, List.mem_append, List.mem_singleton]
      rw [hwords g ((h.sameTables ht).walkFrame_iff.2 hg) k, h.words g hg k, hptr, zeroAt,
        Mm.zeroAll, Mm.zeroAll]
      by_cases hgk : (⟨g, k⟩ : PtePtr) = c₀.vm.mm.leafPtr d (vpn va)
      · rw [if_pos hgk, if_pos (hmem.2 (Or.inr hgk))]
        rfl
      · rw [if_neg hgk]
        exact congrArg (fun x : Option (BitVec 32) => x.getD _)
          (if_congr ((hmem.trans (or_iff_left hgk)).symm) rfl rfl)
    · rcases List.mem_append.1 hmem with hmem | hmem
      · exact h.low q hmem
      · rw [List.mem_singleton.1 hmem]
        exact ⟨hlow, hP⟩

/-- A change of the counters of the environments. -/
theorem congr (h : RemovedAll c₀ c d qs) {s : Vm} (hmm : s.mm = c.vm.mm)
    (hpgdir : ∀ e, s.pgdir e = c.vm.pgdir e) :
    RemovedAll c₀ { c with vm := s } d qs := by
  refine ⟨⟨h.same.curenv, fun e => (hpgdir e).trans (h.same.pgdir e), fun g hg => ?_⟩, h.tlb,
    fun g hg k => ?_, h.low⟩
  · change (s.mm.pages g).has poisonAfterFree = false
    rw [hmm]
    exact h.same.marks g hg
  · change s.mm.word g k = _
    rw [hmm]
    exact h.words g hg k

end RemovedAll

/-! ### `vma_remove_pages` -/

/-- The pages that `vma_remove_pages` removes from `n` pages at `q`: it stops at the first one
without a page table, which may be the rest of a 4 MB page. -/
def Mm.removed (m : Mm) (d : ℕ) : ℕ → ℕ → List ℕ
  | 0, _ => []
  | n + 1, q =>
      match m.leaf d q with
      | none => []
      | some (_, true) => q :: if (q + 1) / 1024 = q / 1024 then [] else m.removed d n (q + 1)
      | some (w, false) => (if isPresent w then [q] else []) ++ m.removed d n (q + 1)

theorem vpn_pageAt {va : BitVec 32} {i : ℕ} (h : va.toNat + i * 4096 < 2 ^ 32) :
    vpn (pageAt va i) = vpn va + i := by
  have hp : pgSize = 4096 := rfl
  rw [pageAt, vpn, vpn, BitVec.toNat_add, BitVec.toNat_ofNat, hp]
  omega

/-- The `n` pages from `va + i * PGSIZE` on start below `UTOP`. -/
def LowPages (va : BitVec 32) (i n : ℕ) : Prop := ∀ k < n, va.toNat + (i + k) * 4096 < uTop.toNat

theorem LowPages.of_le {va : BitVec 32} {i n : ℕ} (h : va.toNat + (i + n) * 4096 ≤ uTop.toNat) :
    LowPages va i n := by
  intro k hk
  generalize uTop.toNat = u at h ⊢
  omega

theorem LowPages.succ {va : BitVec 32} {i n : ℕ} (h : LowPages va i (n + 1)) :
    LowPages va (i + 1) n := by
  intro k hk
  have := h (k + 1) (by omega)
  rwa [show i + 1 + k = i + (k + 1) by omega]

theorem LowPages.first {va : BitVec 32} {i n : ℕ} (h : LowPages va i (n + 1)) :
    va.toNat + i * 4096 < 4005560320 :=
  h 0 (Nat.succ_pos n)

theorem LowPages.next {va : BitVec 32} {i n : ℕ} (h : LowPages va i (n + 1)) :
    va.toNat + (i + 1) * 4096 < 2 ^ 32 := by
  have hlt : va.toNat + (i + 1) * 4096 < 4005560320 + 4096 := by
    rw [Nat.add_mul, ← Nat.add_assoc]
    exact Nat.add_lt_add_right h.first 4096
  exact Nat.lt_trans hlt (by decide)

theorem LowPages.at_page {va : BitVec 32} {i n q : ℕ} (h : LowPages va i n) (hle : vpn va + i ≤ q)
    (hlt : q < vpn va + i + n) : q / 1024 < pdx uTop := by
  have hat := h (q - (vpn va + i)) (by omega)
  have hU : uTop.toNat = 4005560320 := rfl
  have hpdx : pdx uTop = 955 := rfl
  rw [hU] at hat
  rw [hpdx]
  rw [vpn] at hle hat
  omega

theorem LowPages.page {va : BitVec 32} {n q : ℕ} (h : LowPages va 0 n) (hle : vpn va ≤ q)
    (hlt : q < vpn va + n) : q / 1024 < pdx uTop := h.at_page hle hlt

theorem pageAt_lt {va : BitVec 32} {i n : ℕ} (h : LowPages va i (n + 1)) :
    pageAt va i < uTop ∧ vpn (pageAt va i) = vpn va + i := by
  have hfirst := h.first
  have hU : uTop.toNat = 4005560320 := rfl
  have hp : pgSize = 4096 := rfl
  refine ⟨?_, vpn_pageAt (by omega)⟩
  rw [BitVec.lt_def, pageAt, BitVec.toNat_add, BitVec.toNat_ofNat, hp, hU]
  omega

theorem pgdir_modSpace (s : Vm) (e : ℕ) {f : Space → Space} (hf : ∀ sp, (f sp).pgdir = sp.pgdir)
    (e' : ℕ) :
    (s.modSpace e f).pgdir e' = s.pgdir e' := by
  by_cases he : e' = e
  · rw [he]
    exact (congrArg Space.pgdir (Function.update_self e _ s.envs)).trans (hf _)
  · exact congrArg Space.pgdir (Function.update_of_ne he _ s.envs)

/-- The loop stops where there is no page table. -/
theorem removePagesOn_absent {c : Core} {e d : ℕ} (hd : c.vm.pgdir e = some d) {va : BitVec 32}
    {n i : ℕ} (h : c.vm.mm.leaf d (vpn (pageAt va i)) = none) :
    removePagesOn e va n i c = .ok c := by
  cases n with
  | zero => rfl
  | succ n =>
      have hfind : pgdirFind c.vm (some d) (pageAt va i) = .ok none := by
        unfold pgdirFind
        dsimp only
        rw [pdx_eq]
        exact if_neg (by rw [Vm.pte, Mm.leaf_eq_none.1 h]; exact Bool.false_ne_true)
      rw [removePagesOn, hd, hfind]
      rfl

/-- The pages of `qs` lie behind the loop of `vma_remove_pages`, which has come to the page `q`, and
so do the 4 MB pages that they were part of. -/
def Mm.Behind (m : Mm) (d q : ℕ) (qs : List ℕ) : Prop :=
  ∀ p ∈ qs, p < q ∧ (isHuge (m.word d (p / 1024)) = true → p / 1024 ≠ q / 1024)

namespace Mm.Behind

variable {m : Mm} {d q : ℕ} {qs : List ℕ}

theorem nil : m.Behind d q [] := fun _ hp => absurd hp List.not_mem_nil

theorem not_mem (h : m.Behind d q qs) : q ∉ qs := fun hmem => absurd (h q hmem).1 (Nat.lt_irrefl q)

theorem group_not_mem (h : m.Behind d q qs) (hH : isHuge (m.word d (q / 1024)) = true) :
    q / 1024 ∉ qs.map (· / 1024) := by
  intro hmem
  obtain ⟨p, hp, heq⟩ := List.mem_map.1 hmem
  have heq : p / 1024 = q / 1024 := heq
  exact (h p hp).2 (by rw [heq]; exact hH) heq

theorem succ (h : m.Behind d q qs) : m.Behind d (q + 1) qs := by
  intro p hp
  obtain ⟨hlt, hne⟩ := h p hp
  refine ⟨by omega, fun hH => ?_⟩
  have := hne hH
  omega

/-- The page that the loop has come to is removed, and it goes on behind the 4 MB page that it may
be part of. -/
theorem snoc (h : m.Behind d q qs)
    (hnext : isHuge (m.word d (q / 1024)) = true → (q + 1) / 1024 ≠ q / 1024) :
    m.Behind d (q + 1) (qs ++ [q]) := by
  intro p hp
  rcases List.mem_append.1 hp with hp | hp
  · exact h.succ p hp
  · obtain rfl := List.mem_singleton.1 hp
    exact ⟨Nat.lt_succ_self p, fun hH => (hnext hH).symm⟩

end Mm.Behind

namespace RemovedAll

variable {c₀ c : Core} {e d : ℕ} {qs : List ℕ} {va : BitVec 32}

/-- **One round of `vma_remove_pages`** for a page that is present: `rest` is what follows, on the
pages behind it. -/
theorem round (rest : Core → Except Crash Core) (h : RemovedAll c₀ c d qs)
    (ht : TlbTables c₀.vm.mm d) (hcur : c₀.curenv = some e) (hd : c₀.vm.pgdir e = some d)
    (hva : va < uTop) (hbehind : c₀.vm.mm.Behind d (vpn va) qs)
    (hP : isPresent (c₀.vm.mm.word d (vpn va / 1024)) = true) {n : Core → BitVec 32}
    {Q : Core → Prop}
    (hrest : ∀ c', RemovedAll c₀ c' d (qs ++ [vpn va]) → Ends (fun _ => True) Q (rest c')) :
    Ends (fun _ => True) Q (do
      let c₁ ← pageRemoveOn c (some d) va
      let s ← dropPages c₁.vm e (n c₁)
      let c ← pure { c₁ with vm := s }
      rest c) := by
  rw [ends_bind]
  refine (h.remove ht hcur hd hva hbehind.not_mem hbehind.group_not_mem hP).post fun c₁ h₁ => ?_
  unfold dropPages
  rw [ends_bind]
  refine ends_ite (fun _ => True.intro) fun _ => ?_
  generalize hs₂ : c₁.vm.modSpace e _ = s₂
  rw [ends_pure]
  exact hrest { c₁ with vm := s₂ }
    (h₁.congr (by rw [← hs₂]; rfl) (by rw [← hs₂]; exact pgdir_modSpace c₁.vm e fun _ => rfl))

/-- When a 4 MB page has been removed there is no entry for the rest of it. -/
theorem leaf_group (h : RemovedAll c₀ c d (qs ++ [vpn va]))
    (hH : isHuge (c₀.vm.mm.word d (vpn va / 1024)) = true) {q : ℕ} (hq : q / 1024 = vpn va / 1024) :
    c.vm.mm.leaf d q = none := by
  have hzero : c.vm.mm.word d (vpn va / 1024) = 0 := by
    refine h.words.word_dir.trans ?_
    rw [Mm.zeroAll, if_pos
      (List.mem_map.2 ⟨_, List.mem_append_right _ (List.mem_singleton.2 rfl), Mm.leafPtr_huge hH⟩)]
    rfl
  rw [Mm.leaf_eq_none, hq, hzero]
  decide

end RemovedAll

/-- **The loop of `vma_remove_pages`.** -/
theorem removePagesOn_removed {c₀ : Core} {e d : ℕ} (ht : TlbTables c₀.vm.mm d)
    (hcur : c₀.curenv = some e) (hd : c₀.vm.pgdir e = some d) {va : BitVec 32} :
    ∀ (n i : ℕ) (c : Core) (qs : List ℕ), RemovedAll c₀ c d qs → LowPages va i n →
      c₀.vm.mm.Behind d (vpn va + i) qs →
      Ends (fun _ => True) (fun c' => RemovedAll c₀ c' d (qs ++ c₀.vm.mm.removed d n (vpn va + i)))
        (removePagesOn e va n i c) := by
  intro n
  induction n with
  | zero =>
      intro i c qs h _ _
      rw [Mm.removed, List.append_nil]
      exact h
  | succ n ih =>
      intro i c qs h hend hbehind
      obtain ⟨hva, hvpn⟩ := pageAt_lt hend
      rw [← hvpn] at hbehind ⊢
      have hlow : vpn (pageAt va i) / 1024 < pdx uTop := pdx_eq (pageAt va i) ▸ pdx_lt_of_lt hva
      obtain ⟨hleaf, hptr, hdir⟩ := h.leaf_rest ht hlow hbehind.not_mem hbehind.group_not_mem
      have hdc := (h.same.pgdir e).trans hd
      -- the rest of the loop
      have hrest : ∀ (c' : Core) (qs' : List ℕ), RemovedAll c₀ c' d qs' →
          c₀.vm.mm.Behind d (vpn (pageAt va i) + 1) qs' →
          Ends (fun _ => True) (fun c' => RemovedAll c₀ c' d
            (qs' ++ c₀.vm.mm.removed d n (vpn (pageAt va i) + 1)))
            (removePagesOn e va n (i + 1) c') := by
        intro c' qs' h' hqs'
        rw [hvpn, Nat.add_assoc] at hqs' ⊢
        exact ih (i + 1) c' qs' h' hend.succ hqs'
      have hsnoc : ∀ l, qs ++ vpn (pageAt va i) :: l = (qs ++ [vpn (pageAt va i)]) ++ l :=
        fun l => by
        rw [List.append_assoc]
        rfl
      rw [removePagesOn, hdc, ends_bind]
      refine (pgdirFind_leaf c.vm d (pageAt va i)).post ?_
      rintro r (⟨rfl, hnone⟩ | ⟨rfl, hP⟩)
      · rw [hleaf] at hnone
        rw [Mm.removed, hnone, List.append_nil]
        exact h
      rw [hdir] at hP
      cases hH : isHuge (c₀.vm.mm.word d (vpn (pageAt va i) / 1024)) with
      | false =>
          -- an entry of a page table, which may be absent
          have hwb : c₀.vm.mm.leaf d (vpn (pageAt va i)) =
              some (c₀.vm.mm.word (pgnum (c₀.vm.mm.word d (vpn (pageAt va i) / 1024)))
                (vpn (pageAt va i) % 1024), false) := by
            rw [Mm.leaf, if_pos hP, hH, if_neg Bool.false_ne_true]
          generalize c₀.vm.mm.word (pgnum (c₀.vm.mm.word d (vpn (pageAt va i) / 1024)))
            (vpn (pageAt va i) % 1024) = w at hwb
          have hpte : c.vm.pte (c.vm.mm.leafPtr d (vpn (pageAt va i))) = w :=
            (Mm.leaf_eq_some (hleaf.trans hwb)).2.2.symm
          rw [Mm.removed, hwb]
          dsimp only
          rw [hpte]
          refine ends_ite (fun hPw => ?_) fun hPw => ?_
          · rw [if_pos hPw, List.singleton_append, hsnoc]
            refine RemovedAll.round (removePagesOn e va n (i + 1)) h ht hcur hd hva hbehind hP
              fun c' h' => hrest c' _ h' (hbehind.snoc fun hc => ?_)
            rw [hH] at hc
            exact absurd hc Bool.false_ne_true
          · rw [if_neg hPw, List.nil_append]
            exact hrest c qs h hbehind.succ
      | true =>
          have hwb : c₀.vm.mm.leaf d (vpn (pageAt va i)) =
              some (c₀.vm.mm.word d (vpn (pageAt va i) / 1024), true) := by
            rw [Mm.leaf, if_pos hP, if_pos hH]
          have hpte : c.vm.pte (c.vm.mm.leafPtr d (vpn (pageAt va i))) =
              c₀.vm.mm.word d (vpn (pageAt va i) / 1024) :=
            (Mm.leaf_eq_some (hleaf.trans hwb)).2.2.symm
          rw [Mm.removed, hwb]
          dsimp only
          rw [hpte, if_pos hP, hsnoc]
          refine RemovedAll.round (removePagesOn e va n (i + 1)) h ht hcur hd hva hbehind hP
            fun c' h' => ?_
          by_cases hgroup : (vpn (pageAt va i) + 1) / 1024 = vpn (pageAt va i) / 1024
          · -- the next page was part of the 4 MB page
            have hnext : vpn (pageAt va (i + 1)) = vpn (pageAt va i) + 1 := by
              rw [hvpn, Nat.add_assoc]
              exact vpn_pageAt hend.next
            rw [if_pos hgroup, List.append_nil, removePagesOn_absent ((h'.same.pgdir e).trans hd)]
            · exact h'
            · exact h'.leaf_group hH (by rw [hnext, hgroup])
          · rw [if_neg hgroup]
            exact hrest c' _ h' (hbehind.snoc fun _ => hgroup)

end Jos
