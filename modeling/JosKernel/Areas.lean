/-
**The areas of an environment.**

What `kern/vma.c` leaves in the descriptors, when it is asked for areas of 4 KB pages below `UTOP`
that do not overlap and whose permissions are only permissions. `vma_new` does not check any of
this: its callers do, or take care of it.

Main definitions:

* `Jos.CleanPerm`, `Jos.AreaOk` — permissions and areas as the kernel expects them;
* `Jos.Areas` — the areas of one environment do not overlap.

Main results:

* `Jos.Areas.vmaNew` — `vma_new` of an area that overlaps with no other;
* `Jos.Areas.vmaLookup` — `vma_lookup` finds the area that covers an address.
-/

import JosKernel.VmaLists

set_option relaxedAutoImplicit false
set_option autoImplicit false

namespace Jos

open LinkedList Outcome

/-! ### Permissions -/

/-- `PTE_AVAIL | PTE_W | PTE_U`: what is left of `PTE_SYSCALL` without `PTE_P`. -/
def permMask : BitVec 32 := pteAvail ||| pteW ||| pteU

/-- Permissions, and nothing else. -/
def CleanPerm (perm : BitVec 32) : Prop := perm &&& ~~~permMask = 0

instance (perm : BitVec 32) : Decidable (CleanPerm perm) := inferInstanceAs (Decidable (_ = _))

theorem CleanPerm.getLsbD {perm : BitVec 32} (h : CleanPerm perm) {k : ℕ}
    (hk : permMask.getLsbD k = false) :
    perm.getLsbD k = false := by
  by_cases hlt : k < 32
  · have hbit := congrArg (fun w => BitVec.getLsbD w k) h
    simp only [BitVec.getLsbD_and, BitVec.getLsbD_not, hlt, hk, decide_true, Bool.not_false,
      Bool.and_true]
      at hbit
    exact hbit.trans (by simp)
  · exact BitVec.getLsbD_of_ge _ _ (by omega)

theorem CleanPerm.lt {perm : BitVec 32} (h : CleanPerm perm) : perm.toNat < 4096 := by
  have hle : perm = perm &&& permMask := by
    ext k hk
    have hbit := @CleanPerm.getLsbD perm h k
    rw [BitVec.getElem_and, ← BitVec.getLsbD_eq_getElem hk, ← BitVec.getLsbD_eq_getElem hk]
    cases hm : permMask.getLsbD k with
    | false => rw [hbit hm]; rfl
    | true => simp
  rw [hle, BitVec.toNat_and]
  exact Nat.lt_of_le_of_lt Nat.and_le_right (by decide)

theorem CleanPerm.and_eq_zero {perm m : BitVec 32} (h : CleanPerm perm) (hm : m &&& permMask = 0) :
    perm &&& m = 0 := by
  ext k hk
  have hbit := congrArg (fun w => BitVec.getLsbD w k) hm
  simp only [BitVec.getLsbD_and] at hbit
  rw [BitVec.getElem_and, ← BitVec.getLsbD_eq_getElem hk, ← BitVec.getLsbD_eq_getElem hk]
  cases hmask : permMask.getLsbD k with
  | false => simp [h.getLsbD hmask]
  | true =>
      rw [hmask, Bool.and_true] at hbit
      rw [hbit]
      simp

theorem CleanPerm.not_present {perm : BitVec 32} (h : CleanPerm perm) : isPresent perm = false := by
  rw [isPresent, h.and_eq_zero (by decide)]
  rfl

theorem CleanPerm.not_huge {perm : BitVec 32} (h : CleanPerm perm) : isHuge perm = false := by
  rw [isHuge, h.and_eq_zero (by decide)]
  rfl

theorem CleanPerm.or {perm q : BitVec 32} (h : CleanPerm perm) (hq : CleanPerm q) :
    CleanPerm (perm ||| q) := by
  unfold CleanPerm at *
  rw [BitVec.and_or_distrib_right, h, hq]
  rfl

theorem cleanPerm_zero : CleanPerm 0 := by decide

/-! ### One area -/

/-- **An area as the kernel expects it**: of 4 KB pages below `UTOP`, with permissions that are only
permissions, and for a part of the program with an image that fits. -/
structure AreaOk (v : Vma) : Prop where
  perm : CleanPerm v.perm
  small : v.hps = false
  page : v.va.toNat % 4096 = 0 ∧ v.len.toNat % 4096 = 0
  low : v.va.toNat + v.len.toNat ≤ uTop.toNat
  fits : v.type = .binary → v.cpyDst.toNat + v.srcSz.toNat ≤ v.len.toNat
  source : v.type = .binary → v.cpySrc ≠ 0 ∧ v.srcSz ≠ 0
  blank : v.type ≠ .binary → v.cpySrc = 0

/-- A descriptor without its link. -/
def Vma.body (v : Vma) : Vma := { v with vmaLink := none }

theorem areaOk_body {v : Vma} : AreaOk v.body ↔ AreaOk v :=
  ⟨fun h => ⟨h.perm, h.small, h.page, h.low, h.fits, h.source, h.blank⟩,
    fun h => ⟨h.perm, h.small, h.page, h.low, h.fits, h.source, h.blank⟩⟩

theorem AreaOk.congr {v w : Vma} (h : AreaOk v) (hbody : w.body = v.body) : AreaOk w :=
  areaOk_body.1 (hbody ▸ areaOk_body.2 h)

theorem areaOk_unused (link : Option ℕ) : AreaOk (Vma.unused link false) where
  perm := cleanPerm_zero
  small := rfl
  page := ⟨rfl, rfl⟩
  low := Nat.zero_le _
  fits h := absurd h (by simp [Vma.unused])
  source h := absurd h (by simp [Vma.unused])
  blank _ := rfl

/-- The addresses of an area. -/
theorem AreaOk.covers_iff {v : Vma} (h : AreaOk v) {va : BitVec 32} :
    v.covers va = true ↔ v.va.toNat ≤ va.toNat ∧ va.toNat < v.va.toNat + v.len.toNat := by
  have hlow := h.low
  have hU : uTop.toNat = 4005560320 := rfl
  simp only [Vma.covers, decide_eq_true_eq, BitVec.le_def, BitVec.lt_def]
  rw [BitVec.toNat_add, Nat.mod_eq_of_lt (by omega)]

/-- An address in an area is below `UTOP`. -/
theorem AreaOk.lt {v : Vma} (h : AreaOk v) {va : BitVec 32} (hc : v.covers va = true) :
    va < uTop := by
  have hlow := h.low
  have hcov := h.covers_iff.1 hc
  rw [BitVec.lt_def]
  omega

/-- Two areas have no address in common. -/
def Vma.Apart (v w : Vma) : Prop :=
  v.va.toNat + v.len.toNat ≤ w.va.toNat ∨ w.va.toNat + w.len.toNat ≤ v.va.toNat

instance (v w : Vma) : Decidable (v.Apart w) := instDecidableOr

theorem Vma.Apart.symm {v w : Vma} (h : v.Apart w) : w.Apart v := Or.symm h

theorem Vma.Apart.congr {v w v' w' : Vma} (h : v.Apart w) (hv : v'.body = v.body)
    (hw : w'.body = w.body) :
    v'.Apart w' := by
  have hva : ∀ {a b : Vma}, a.body = b.body → a.va = b.va ∧ a.len = b.len := by
    intro a b hab
    have h₁ : a.body.va = b.body.va := by rw [hab]
    have h₂ : a.body.len = b.body.len := by rw [hab]
    exact ⟨h₁, h₂⟩
  rw [Vma.Apart, (hva hv).1, (hva hv).2, (hva hw).1, (hva hw).2]
  exact h

/-! ### The areas of one environment -/

/-- **The areas of an environment**: those of `la` are in use and do not overlap, and those of `lf`
are free. -/
structure Areas (sp : Space) (la lf : List ℕ) : Prop where
  lists : VmaInv sp la lf
  ok : ∀ i, AreaOk (sp.vmas i)
  apart : la.Pairwise fun i j => (sp.vmas i).Apart (sp.vmas j)

/-- The area that `vma_new` is asked for. -/
def newVma (va len : BitVec 32) (type : VmaType) (src filesize cpyDst perm : BitVec 32) : Vma :=
  ⟨type, va, roundUp len (BitVec.ofNat 32 pgSize), perm, none, if type = .binary then src else 0,
    filesize, cpyDst, false⟩

/-- `vma_remove_head` leaves the descriptor as it was, but for its link. -/
theorem vmaRemoveHead_some {sp sp₁ : Space} {el : ℕ} (hhead : sp.freeVmaList = some el)
    (h : vmaRemoveHead sp = (some el, sp₁)) :
    (∀ j, (sp₁.vmas j).body = (sp.vmas j).body) ∧ sp₁.pgdir = sp.pgdir ∧
      sp₁.allocPages = sp.allocPages := by
  have hsp₁ : sp₁ = { sp with freeVmaList := sp.link el }.modVma el fun v =>
      { v with vmaLink := none } := by
    rw [vmaRemoveHead, hhead] at h
    exact (congrArg Prod.snd h).symm
  rw [hsp₁]
  refine ⟨fun j => ?_, rfl, rfl⟩
  by_cases hj : j = el
  · subst hj
    rw [Space.modVma_self]
    rfl
  · rw [Space.modVma_of_ne _ _ hj]

/-- A length in pages is not rounded. -/
theorem roundUp_of_page {len : BitVec 32} (h : len.toNat % 4096 = 0) :
    roundUp len (BitVec.ofNat 32 pgSize) = len := by
  have hlt := len.isLt
  have hsum : (len + BitVec.ofNat 32 pgSize - 1).toNat = len.toNat + 4095 := by
    have h4096 : (BitVec.ofNat 32 pgSize).toNat = 4096 := rfl
    have hone : (1 : BitVec 32).toNat = 1 := rfl
    rw [BitVec.toNat_sub, BitVec.toNat_add, h4096, hone]
    omega
  refine BitVec.eq_of_toNat_eq ?_
  rw [roundUp, roundDown, BitVec.toNat_sub_of_le, BitVec.toNat_umod, hsum]
  · change len.toNat + 4095 - (len.toNat + 4095) % 4096 = _
    omega
  · rw [BitVec.le_def, BitVec.toNat_umod, hsum]
    exact Nat.mod_le ..

/-- The copy of an area is the area. -/
theorem AreaOk.newVma_eq {v : Vma} (h : AreaOk v) :
    newVma v.va v.len v.type v.cpySrc v.srcSz v.cpyDst v.perm = v.body := by
  have hsrc : (if v.type = .binary then v.cpySrc else 0) = v.cpySrc := by
    split
    · rfl
    · rename_i hne
      exact (h.blank hne).symm
  have hsmall := h.small
  rw [newVma, roundUp_of_page h.page.2, hsrc, Vma.body, hsmall]

/-- `vma_insert` changes links only. -/
theorem vmaInsert_body (sp : Space) (el : ℕ) :
    Ends (fun _ => True) (fun sp' => (∀ j, (sp'.vmas j).body = (sp.vmas j).body) ∧
      sp'.pgdir = sp.pgdir ∧
      sp'.allocPages = sp.allocPages) (vmaInsert sp el) := by
  have hbody : ∀ (sp : Space) (i : ℕ) (p : Option ℕ) (j : ℕ),
      ((sp.modVma i fun v => { v with vmaLink := p }).vmas j).body = (sp.vmas j).body := by
    intro sp i p j
    by_cases hj : j = i
    · subst hj
      rw [Space.modVma_self]
      rfl
    · rw [Space.modVma_of_ne _ _ hj]
  unfold vmaInsert
  split
  · exact ⟨hbody sp el none, rfl, rfl⟩
  · refine ends_ite (fun _ => ⟨hbody sp el _, rfl, rfl⟩) fun _ => ?_
    split
    · exact True.intro
    · refine ⟨fun j => ?_, rfl, rfl⟩
      exact (hbody _ _ _ j).trans (hbody sp el _ j)

namespace Areas

variable {sp sp' : Space} {la lf : List ℕ}

/-- The links are as before, and so are the areas. -/
theorem congr (h : Areas sp la lf) (hl : sp'.lists = sp.lists) : Areas sp' la lf := by
  have hv : sp'.vmas = sp.vmas := congrArg Prod.fst hl
  refine ⟨h.lists.congr hl, fun i => ?_, ?_⟩
  · rw [hv]
    exact h.ok i
  · rw [hv]
    exact h.apart

/-- **What `vma_new` leaves behind when it returns 1.** -/
structure Added (sp sp' : Space) (la la' lf' : List ℕ) (new : ℕ) (v : Vma) : Prop where
  areas : Areas sp' la' lf'
  list : la'.Perm (new :: la)
  fresh : new ∉ la
  body : (sp'.vmas new).body = v
  others : ∀ j ≠ new, (sp'.vmas j).body = (sp.vmas j).body
  pgdir : sp'.pgdir = sp.pgdir
  allocPages : sp'.allocPages = sp.allocPages

/-- **`vma_new`** of an area that overlaps with no other. -/
theorem vmaNew (h : Areas sp la lf) {va len : BitVec 32} {type : VmaType}
    {src filesize cpyDst perm : BitVec 32}
    (hok : AreaOk (newVma va len type src filesize cpyDst perm))
    (hapart : ∀ i ∈ la, (newVma va len type src filesize cpyDst perm).Apart (sp.vmas i)) :
    Ends (fun _ => True)
      (fun r => ∃ new la' lf', r.1 = .made new ∧
        Added sp r.2 la la' lf' new (newVma va len type src filesize cpyDst perm))
      (vmaNew sp va len type src filesize cpyDst perm) := by
  have hsrc : ¬ (type = .binary ∧ (src = 0 ∨ filesize = 0)) := by
    rintro ⟨rfl, hz⟩
    obtain ⟨h₁, h₂⟩ := hok.source rfl
    exact hz.elim h₁ h₂
  have hpage : ¬ va % BitVec.ofNat 32 pgSize ≠ 0 :=
    not_not_intro (mod_pgSize_eq_zero.2 hok.page.1)
  unfold Jos.vmaNew
  dsimp only
  rw [if_neg hsrc, if_neg hpage]
  cases lf with
  | nil =>
      have hnone : sp.freeVmaList = none := h.lists.free
      rw [vmaRemoveHead, hnone]
      exact True.intro
  | cons el lf =>
      obtain ⟨sp₁, hsp₁, hheld, hclean⟩ := vmaRemoveHead_held h.lists
      obtain ⟨hbody₁, hpg₁, hpages₁⟩ := vmaRemoveHead_some h.lists.free.1 hsp₁
      have hhps : (sp₁.vmas el).hps = false :=
        (congrArg Vma.hps (hbody₁ el)).trans (h.ok el).small
      rw [hsp₁]
      refine ends_ite (fun _ => True.intro) fun _ => ?_
      rw [ends_bind]
      refine (Ends.and (vmaInsert_ends (hheld.modVma ?_)) (vmaInsert_body _ el)).mono
        (fun _ _ => True.intro) ?_
      · exact fun _ => rfl
      rintro sp₂ ⟨⟨la', hinv', hperm⟩, hbody₂, hpg, hpages⟩
      have hfresh := hheld.not_mem.1
      have hnew : (sp₂.vmas el).body = newVma va len type src filesize cpyDst perm := by
        rw [hbody₂ el, Space.modVma_self, newVma]
        have hsrc := hclean.cpySrc
        simp only [Vma.body, hsrc, hhps]
      have hothers : ∀ j ≠ el, (sp₂.vmas j).body = (sp.vmas j).body := by
        intro j hj
        rw [hbody₂ j, Space.modVma_of_ne _ _ hj]
        exact hbody₁ j
      refine ⟨el, la', lf, rfl, ⟨hinv', fun i => ?_, ?_⟩, hperm, hfresh, hnew, hothers, ?_, ?_⟩
      · by_cases hi : i = el
        · subst hi
          exact areaOk_body.1 (hnew.symm ▸ hok)
        · exact (h.ok i).congr (hothers i hi)
      · refine (List.Perm.pairwise_iff (fun hxy => Vma.Apart.symm hxy) hperm).2 ?_
        rw [List.pairwise_cons]
        have hne : ∀ j ∈ la, j ≠ el := by
          rintro j hj rfl
          exact hfresh hj
        constructor
        · intro j hj
          exact (hapart j hj).congr (hnew.trans rfl) (hothers j (hne j hj))
        · refine h.apart.imp_of_mem fun hi hj hij => ?_
          exact hij.congr (hothers _ (hne _ hi)) (hothers _ (hne _ hj))
      · exact hpg.trans hpg₁
      · exact hpages.trans hpages₁

/-- **`vma_lookup`** finds an area that covers the address. -/
theorem vmaLookup (h : Areas sp la lf) (va : BitVec 32) :
    Ends (fun _ => False) (fun r => (r = none ∧ ∀ i ∈ la, (sp.vmas i).covers va = false) ∨
      ∃ i ∈ la, r = some i ∧ (sp.vmas i).covers va = true) (vmaLookup sp va) := by
  have hlen : la.length ≤ nVma := by
    have hlen := h.lists.length_eq
    omega
  unfold Jos.vmaLookup
  rcases h.lists.alloc.seek_cases hlen (fun i => (sp.vmas i).covers va) none with
    ⟨hnone, hseek⟩ | ⟨pre, x, post, rfl, -, hx, hseek⟩
  · rw [hseek]
    exact Or.inl ⟨rfl, hnone⟩
  · rw [hseek]
    exact Or.inr ⟨x, by simp, rfl, hx⟩

end Areas

/-- **`vma_proc_init`**: no area is in use. -/
theorem vmaProcInit_areas {sp : Space} (h : ∀ i, AreaOk (sp.vmas i)) :
    ∃ lf, Areas (vmaProcInit sp) [] lf := by
  have hloop : ∀ l : List ℕ, ∀ sp : Space, (∀ i, AreaOk (sp.vmas i)) →
      ∀ i, AreaOk ((l.foldl (fun (sp : Space) i =>
        { sp.modVma i (fun _ => Vma.unused sp.freeVmaList false) with freeVmaList := some i })
          sp).vmas i) := by
    intro l
    induction l with
    | nil => exact fun sp hok => hok
    | cons i l ih =>
        intro sp hok
        refine ih _ fun j => ?_
        change AreaOk ((sp.modVma i fun _ => Vma.unused sp.freeVmaList false).vmas j)
        by_cases hj : j = i
        · subst hj
          rw [Space.modVma_self]
          exact areaOk_unused _
        · rw [Space.modVma_of_ne _ _ hj]
          exact hok j
  have hok :=
    hloop (List.range nVma).reverse { sp with freeVmaList := none, allocVmaList := none } h
  exact ⟨List.range nVma, vmaProcInit_inv sp, hok, List.Pairwise.nil⟩

end Jos
