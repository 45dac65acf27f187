/-
**Insertions and the TLB.**

An insertion writes the entry that `pgdir_walk` finds. When the entry was present with another
frame, `page_remove` comes first and takes the page out of the TLB. When the frame is the same
nothing does, whatever permissions are taken away. `vma_change_perm` is made of such insertions
only.

Main definitions:

* `Jos.newPte`, `Jos.Mm.insertPtr` — the entry that `page_insert` writes, and its place;
* `Jos.InsertFits`, `Jos.RenewFits` — the conditions;
* `Jos.TlbCall` — the four functions.

Main results:

* `Jos.InsertedOn.fresh_iff`, `Jos.RenewedAll.fresh_iff` — what one insertion and a loop of them
  leave in the TLB;
* `Jos.tlb_fresh_iff` — **no entry of the TLB is stale after a call if and only if the condition
  holds**.
-/

import JosKernel.Tlb

set_option relaxedAutoImplicit false
set_option autoImplicit false

namespace Jos

open Outcome

/-! ### The new entry -/

/-- The entry that `page_insert` writes. -/
def newPte (pp : ℕ) (perm : BitVec 32) : BitVec 32 := page2pa pp ||| perm ||| pteP

theorem isPresent_newPte (pp : ℕ) (perm : BitVec 32) : isPresent (newPte pp perm) = true :=
  isPresent_or_pteP _

theorem isHuge_newPte (pp : ℕ) (perm : BitVec 32) : isHuge (newPte pp perm) = isHuge perm := by
  rw [isHuge, newPte, copyPte_and pp perm (by decide) (by decide), isHuge]

theorem pgnum_newPte {f : ℕ} (hf : f < 2 ^ 20) {perm : BitVec 32} (hperm : perm.toNat < 4096) :
    pgnum (newPte f perm) = f := by
  rw [newPte, BitVec.or_assoc]
  refine pgnum_page2pa_or hf ?_
  rw [BitVec.toNat_or]
  exact Nat.or_lt_two_pow (n := 12) hperm (by decide)

/-- The place of the entry that `page_insert` writes, when there is an entry in the directory. -/
def Mm.insertPtr (m : Mm) (d q : ℕ) (huge : Bool) : PtePtr :=
  if huge then ⟨d, q / 1024⟩ else m.leafPtr d q

theorem Mm.insertPtr_of_huge {m : Mm} {d q : ℕ} {huge : Bool}
    (h : isHuge (m.word d (q / 1024)) = true) :
    m.insertPtr d q huge = ⟨d, q / 1024⟩ := by
  cases huge with
  | true => rfl
  | false => exact Mm.leafPtr_huge h

theorem pgdirWalk_present {s : Vm} {d : ℕ} {va : BitVec 32} {huge : Bool}
    (hP : isPresent (s.mm.word d (vpn va / 1024)) = true) :
    Ends (fun _ => True) (fun r => r = (some (s.mm.insertPtr d (vpn va) huge), s))
      (pgdirWalk s (some d) va (if huge then .huge else .normal)) := by
  unfold pgdirWalk
  dsimp only
  rw [pdx_eq]
  have hP' : isPresent (s.pte ⟨d, vpn va / 1024⟩) = true := hP
  rw [if_pos hP', ends_bind]
  unfold walkEnd
  cases huge with
  | true => exact rfl
  | false =>
      refine ends_ite (fun hH => ?_) fun hH => ?_
      · have hH : isHuge (s.mm.word d (vpn va / 1024)) = true := hH
        rw [ends_pure, ends_pure, Mm.insertPtr_of_huge hH]
      · rw [ends_bind]
        unfold kaddr
        refine ends_ite (fun _ => True.intro) fun _ => ?_
        have hH : isHuge (s.mm.word d (vpn va / 1024)) = false := Bool.eq_false_of_not_eq_true hH
        rw [ends_pure, ends_pure, ends_pure, Mm.insertPtr, if_neg Bool.false_ne_true,
          Mm.leafPtr_small hH, ptx_eq, pgnum_pteAddr]
        rfl

/-! ### One insertion -/

/-- `page_remove` comes first: the entry is present with another frame. -/
def FrameMoves (c : Core) (d pp : ℕ) (va perm : BitVec 32) : Prop :=
  isPresent (c.vm.pte (c.vm.mm.insertPtr d (vpn va) (isHuge perm))) = true ∧
    pteAddr (c.vm.pte (c.vm.mm.insertPtr d (vpn va) (isHuge perm))) ≠ page2pa pp

instance (c : Core) (d pp : ℕ) (va perm : BitVec 32) : Decidable (FrameMoves c d pp va perm) :=
  instDecidableAnd

/-- The words that an insertion writes. -/
def insertWords (c : Core) (d pp : ℕ) (va perm : BitVec 32) (p : PtePtr) : Option (BitVec 32) :=
  if p = c.vm.mm.insertPtr d (vpn va) (isHuge perm) then some (newPte pp perm)
  else if FrameMoves c d pp va perm then zeroAt (c.vm.mm.leafPtr d (vpn va)) p
  else none

/-- **The state after an insertion** where there was an entry in the directory. -/
structure InsertedOn (c c' : Core) (d pp : ℕ) (va perm : BitVec 32) : Prop where
  same : SameCore c c' d
  tlb : c'.tlb = if FrameMoves c d pp va perm then c.tlb.invlpg va else c.tlb
  words : Rewritten c.vm.mm c'.vm.mm d (insertWords c d pp va perm)

/-- The last lines of `page_insert`: the reference and the entry. -/
theorem word_insertEnd (s : Vm) (p : PtePtr) (va perm : BitVec 32) (pp : ℕ) (reIns : Prop)
    [Decidable reIns] (g k : ℕ) :
    ((if reIns then s.setRef pp (s.ref pp + 1) else s).writePte p va pp
      (page2pa pp ||| perm ||| pteP)).mm.word g k =
      if (⟨g, k⟩ : PtePtr) = p then newPte pp perm else s.mm.word g k := by
  rw [Vm.word_writePte]
  by_cases hgk : g = p.frame ∧ k = p.idx
  · rw [if_pos hgk, if_pos (by rw [hgk.1, hgk.2])]
    rfl
  · rw [if_neg hgk, if_neg fun hc => hgk ⟨congrArg PtePtr.frame hc, congrArg PtePtr.idx hc⟩]
    split
    · rfl
    · rfl

/-- **`page_insert`** where there is an entry in the directory. -/
theorem pageInsertOn_inserted {c : Core} {e d pp : ℕ} {va perm : BitVec 32}
    (ht : TlbTables c.vm.mm d) (hcur : c.curenv = some e) (hd : c.vm.pgdir e = some d)
    (hP : isPresent (c.vm.mm.word d (vpn va / 1024)) = true) :
    Ends (fun _ => True) (fun r => InsertedOn c r.2 d pp va perm)
      (pageInsertOn c (some d) (some pp) va perm) := by
  unfold pageInsertOn
  refine ends_ite (fun _ => True.intro) fun _ => ?_
  rw [ends_bind]
  refine (pgdirWalk_present hP).post ?_
  rintro r rfl
  dsimp only
  generalize hp : c.vm.mm.insertPtr d (vpn va) (isHuge perm) = p
  by_cases hmoved : FrameMoves c d pp va perm
  · have hc := hmoved
    rw [FrameMoves, hp] at hc
    rw [if_pos hc, ends_bind]
    refine (pageRemoveOn_ends hcur hd ht.unmarked).post ?_
    rintro c₁ ⟨hsame, ⟨hnone, -⟩ | ⟨-, htlb, hwords⟩⟩
    · rw [Mm.leaf_eq_none.1 hnone] at hP
      exact nomatch hP
    · refine ⟨⟨hsame.curenv, fun e => ?_, fun g hg => ?_⟩, ?_, fun g hg k => ?_⟩
      · rw [← hsame.pgdir e]
        split
        · rfl
        · rfl
      · have hmark := hsame.marks g hg
        split
        · change (((c₁.vm.setRef pp _).mm.pages g)).has poisonAfterFree = false
          rw [PageInfo.has, Vm.flags_setRef]
          exact hmark
        · exact hmark
      · rw [if_pos hmoved]
        exact htlb
      · refine (word_insertEnd ..).trans ?_
        rw [insertWords, hp, if_pos hmoved, hwords g hg k]
        split
        · rfl
        · rfl
  · have hc := hmoved
    rw [FrameMoves, hp] at hc
    rw [if_neg hc]
    refine ⟨⟨rfl, fun e => ?_, fun g hg => ?_⟩, (if_neg hmoved).symm, fun g hg k => ?_⟩
    · split
      · rfl
      · rfl
    · have hmark := ht.unmarked g hg
      split
      · change (((c.vm.setRef pp _).mm.pages g)).has poisonAfterFree = false
        rw [PageInfo.has, Vm.flags_setRef]
        exact hmark
      · exact hmark
    · refine (word_insertEnd ..).trans ?_
      rw [insertWords, hp, if_neg hmoved]
      split
      · rfl
      · rfl

/-- **The condition for an insertion.** `small`: the pages that are cached through the entry find
their frame and their permissions in the new one, unless `page_remove` has taken them out of the
TLB. `huge`: so does a 4 MB page, which has to stay one. `table`: a 4 MB page is put over a page
table only if no other page of it is cached. -/
structure InsertFits (c : Core) (d pp : ℕ) (va perm : BitVec 32) : Prop where
  small : isPresent (c.vm.mm.word d (vpn va / 1024)) = true → ∀ q < 2 ^ 20, ∀ e,
    c.tlb.small q = some e →
    c.vm.mm.leafPtr d q = c.vm.mm.insertPtr d (vpn va) (isHuge perm) →
    FrameMoves c d pp va perm ∧ q = vpn va ∨ Covers e (newPte pp perm)
  huge : ∀ e, c.tlb.huge (vpn va / 1024) = some e →
    FrameMoves c d pp va perm ∨ isHuge perm = true ∧ Covers e (newPte pp perm)
  table : isHuge perm = true → ∀ q < 2 ^ 20, q / 1024 = vpn va / 1024 → c.tlb.small q ≠ none →
    FrameMoves c d pp va perm ∧ q = vpn va

theorem Tlb.invlpg_small {t : Tlb} {va : BitVec 32} {q : ℕ} :
    (t.invlpg va).small q = if q = vpn va then none else t.small q :=
  Function.update_apply ..

theorem Tlb.invlpg_huge {t : Tlb} {va : BitVec 32} {i : ℕ} :
    (t.invlpg va).huge i = if i = vpn va / 1024 then none else t.huge i := by
  rw [← pdx_eq]
  exact Function.update_apply ..

namespace InsertedOn

variable {c c' : Core} {d pp : ℕ} {va perm : BitVec 32}

theorem small_eq (h : InsertedOn c c' d pp va perm) (q : ℕ) :
    c'.tlb.small q = if FrameMoves c d pp va perm ∧ q = vpn va then none else c.tlb.small q := by
  rw [h.tlb]
  by_cases hm : FrameMoves c d pp va perm
  · rw [if_pos hm, Tlb.invlpg_small]
    exact if_congr (and_iff_right hm).symm rfl rfl
  · rw [if_neg hm, if_neg fun hc => hm hc.1]

theorem huge_eq (h : InsertedOn c c' d pp va perm) (i : ℕ) :
    c'.tlb.huge i = if FrameMoves c d pp va perm ∧ i = vpn va / 1024 then none
      else c.tlb.huge i := by
  rw [h.tlb]
  by_cases hm : FrameMoves c d pp va perm
  · rw [if_pos hm, Tlb.invlpg_huge]
    exact if_congr (and_iff_right hm).symm rfl rfl
  · rw [if_neg hm, if_neg fun hc => hm hc.1]

variable (ht : TlbTables c.vm.mm d) (hva : va < uTop)
    (hP : isPresent (c.vm.mm.word d (vpn va / 1024)) = true)

include ht hva hP

/-- The entries of the directory that an insertion leaves alone. -/
theorem insertWords_dir {i : ℕ}
    (hi : ¬ (i = vpn va / 1024 ∧ (isHuge perm = true ∨ isHuge (c.vm.mm.word d i) = true))) :
    insertWords c d pp va perm ⟨d, i⟩ = none := by
  have hlow : vpn va / 1024 < pdx uTop := pdx_eq va ▸ pdx_lt_of_lt hva
  have hleaf : ⟨d, i⟩ ≠ c.vm.mm.leafPtr d (vpn va) := by
    intro hc
    obtain ⟨hH, rfl⟩ := ht.leafPtr_dir hlow hP hc.symm
    exact hi ⟨rfl, Or.inr hH⟩
  have hptr : ⟨d, i⟩ ≠ c.vm.mm.insertPtr d (vpn va) (isHuge perm) := by
    cases hperm : isHuge perm with
    | true => exact fun hc => hi ⟨congrArg PtePtr.idx hc, Or.inl hperm⟩
    | false => exact hleaf
  rw [insertWords, if_neg hptr, zeroAt, if_neg hleaf]
  split
  · rfl
  · rfl

/-- What a walk finds for a 4 KB page, when its entry in the directory stays. -/
theorem leaf_small (h : InsertedOn c c' d pp va perm) {q : ℕ} (hq : q < 2 ^ 20) {w : BitVec 32}
    (hleaf : c.vm.mm.leaf d q = some (w, false))
    (hstay : ¬ (isHuge perm = true ∧ q / 1024 = vpn va / 1024)) :
    c'.vm.mm.leaf d q = some (if c.vm.mm.leafPtr d q = c.vm.mm.insertPtr d (vpn va)
      (isHuge perm) then newPte pp perm
      else w, false) := by
  have hlow : vpn va / 1024 < pdx uTop := pdx_eq va ▸ pdx_lt_of_lt hva
  obtain ⟨hPq, hHq, -⟩ := Mm.leaf_eq_some hleaf
  have hdir : insertWords c d pp va perm ⟨d, q / 1024⟩ = none := by
    refine insertWords_dir ht hva hP fun hc => ?_
    rcases hc.2 with hperm | hH
    · exact hstay ⟨hperm, hc.1⟩
    · rw [hHq] at hH
      exact nomatch hH
  rw [h.words.leaf_small hq hdir hleaf, insertWords]
  split
  · rfl
  · rename_i hne
    -- only the page at `va` has the entry that `page_remove` has cleared
    have hother : c.vm.mm.leafPtr d q ≠ c.vm.mm.leafPtr d (vpn va) := by
      intro heq
      cases hH : isHuge (c.vm.mm.word d (vpn va / 1024)) with
      | true =>
          rw [Mm.insertPtr_of_huge hH] at hne
          rw [Mm.leafPtr_huge hH] at heq
          exact hne heq
      | false =>
          obtain rfl := ht.leafPtr_inj hlow hq ⟨hP, hH⟩ ⟨hPq, hHq⟩ heq
          cases hperm : isHuge perm with
          | true => exact hstay ⟨hperm, rfl⟩
          | false =>
              rw [hperm] at hne
              exact hne rfl
    rw [zeroAt, if_neg hother]
    split
    · rfl
    · rfl

/-- **After an insertion no entry of the TLB is stale if and only if the condition holds.** -/
theorem fresh_iff (h : InsertedOn c c' d pp va perm) (hf : c.tlb.Fresh c.vm.mm d) :
    c'.tlb.Fresh c'.vm.mm d ↔ InsertFits c d pp va perm := by
  have hlow : vpn va / 1024 < pdx uTop := pdx_eq va ▸ pdx_lt_of_lt hva
  have hover : isHuge perm = true → c'.vm.mm.word d (vpn va / 1024) = newPte pp perm := by
    intro hperm
    rw [h.words.word_dir, insertWords, if_pos (by rw [hperm]; rfl)]
    rfl
  -- a page of another page table is found as `leaf_small` says, and not through the entry that is
  -- written otherwise
  have hdirEntry : ∀ q < 2 ^ 20, ∀ w, c.vm.mm.leaf d q = some (w, false) → isHuge perm = true →
      q / 1024 = vpn va / 1024 → c.vm.mm.leafPtr d q ≠ c.vm.mm.insertPtr d (vpn va)
        (isHuge perm) := by
    intro q hq w hw hperm hgroup heq
    obtain ⟨hPq, hHq, -⟩ := Mm.leaf_eq_some hw
    rw [hperm] at heq
    have hbad := (ht.leafPtr_dir (by rw [hgroup]; exact hlow) hPq heq).1
    rw [hHq] at hbad
    exact nomatch hbad
  constructor
  · intro hf'
    refine ⟨fun _ q hq e he hptr => ?_, fun e he => ?_, fun hperm q hq hgroup hsmall => ?_⟩
    · by_cases hdrop : FrameMoves c d pp va perm ∧ q = vpn va
      · exact Or.inl hdrop
      · obtain ⟨w, hw, -, -⟩ := hf.small q hq e he
        obtain ⟨w', hw', -, hcov⟩ := hf'.small q hq e (by rw [h.small_eq, if_neg hdrop, he])
        rw [h.leaf_small ht hva hP hq hw fun hc => hdirEntry q hq w hw hc.1 hc.2 hptr, if_pos hptr]
          at hw'
        rw [← (Prod.mk.inj (Option.some.inj hw')).1] at hcov
        exact Or.inr hcov
    · by_cases hdrop : FrameMoves c d pp va perm
      · exact Or.inl hdrop
      · have hi : vpn va / 1024 < 1024 := by
          have := vpn_lt va
          omega
        obtain ⟨-, hH, -⟩ := hf.huge _ hi e he
        have hword : c'.vm.mm.word d (vpn va / 1024) = newPte pp perm := by
          rw [h.words.word_dir, insertWords, if_pos (Mm.insertPtr_of_huge hH).symm]
          rfl
        obtain ⟨-, hH', hcov⟩ :=
          hf'.huge _ hi e (by rw [h.huge_eq, if_neg fun hc => hdrop hc.1, he])
        rw [hword] at hH' hcov
        rw [isHuge_newPte] at hH'
        exact Or.inr ⟨hH', hcov⟩
    · by_contra hdrop
      obtain ⟨e, he⟩ := Option.ne_none_iff_exists'.1 hsmall
      obtain ⟨w', hw', -, -⟩ := hf'.small q hq e (by rw [h.small_eq, if_neg hdrop, he])
      obtain ⟨-, hH', -⟩ := Mm.leaf_eq_some hw'
      rw [hgroup, hover hperm, isHuge_newPte, hperm] at hH'
      exact nomatch hH'
  · intro hfit
    refine ⟨fun q hq e he => ?_, fun i hi e he => ?_⟩
    · rw [h.small_eq] at he
      split at he
      · exact nomatch he
      · rename_i hdrop
        obtain ⟨w, hw, hPw, hcov⟩ := hf.small q hq e he
        have hstay : ¬ (isHuge perm = true ∧ q / 1024 = vpn va / 1024) := fun hc =>
          hdrop (hfit.table hc.1 q hq hc.2 (by rw [he]; exact fun hc => nomatch hc))
        rw [h.leaf_small ht hva hP hq hw hstay]
        split
        · rename_i hptr
          exact ⟨_, rfl, isPresent_newPte pp perm,
            (hfit.small hP q hq e he hptr).resolve_left hdrop⟩
        · exact ⟨w, rfl, hPw, hcov⟩
    · rw [h.huge_eq] at he
      split at he
      · exact nomatch he
      · rename_i hdrop
        obtain ⟨hPi, hHi, hcov⟩ := hf.huge i hi e he
        by_cases hgroup : i = vpn va / 1024
        · subst hgroup
          obtain ⟨hperm, hnew⟩ := (hfit.huge e he).resolve_left fun hc => hdrop ⟨hc, rfl⟩
          rw [hover hperm]
          exact ⟨isPresent_newPte pp perm, (isHuge_newPte pp perm).trans hperm, hnew⟩
        · rw [h.words.word_dir_same (insertWords_dir ht hva hP fun hc => hgroup hc.1)]
          exact ⟨hPi, hHi, hcov⟩

end InsertedOn

/-! ### An insertion that makes an entry in the directory -/

/-- An entry of the directory that is not present can change: nothing is cached through it. -/
theorem Tlb.Fresh.of_absent {t : Tlb} {m m' : Mm} {d i : ℕ} {f : PtePtr → Option (BitVec 32)}
    (h : t.Fresh m d) (hP : isPresent (m.word d i) = false) (hrew : Rewritten m m' d f)
    (hf : ∀ p ≠ ⟨d, i⟩, f p = none) : t.Fresh m' d := by
  refine ⟨fun q hq e he => ?_, fun j hj e he => ?_⟩
  · obtain ⟨w, hw, hPw, hcov⟩ := h.small q hq e he
    obtain ⟨hPq, -, hword⟩ := Mm.leaf_eq_some hw
    have hdir : (⟨d, q / 1024⟩ : PtePtr) ≠ ⟨d, i⟩ := by
      intro hc
      obtain ⟨-, rfl⟩ := PtePtr.mk.inj hc
      rw [hPq] at hP
      exact nomatch hP
    have hptr : m.leafPtr d q ≠ ⟨d, i⟩ := by
      intro hc
      rw [hword, hc, hP] at hPw
      exact nomatch hPw
    refine ⟨w, ?_, hPw, hcov⟩
    rw [hrew.leaf_small hq (hf _ hdir) hw, hf _ hptr]
    rfl
  · obtain ⟨hPj, hHj, hcov⟩ := h.huge j hj e he
    have hdir : (⟨d, j⟩ : PtePtr) ≠ ⟨d, i⟩ := by
      intro hc
      obtain ⟨-, rfl⟩ := PtePtr.mk.inj hc
      rw [hPj] at hP
      exact nomatch hP
    rw [hrew.word_dir_same (hf _ hdir)]
    exact ⟨hPj, hHj, hcov⟩

/-- The frames on the free list `l` are not those of the page tables. -/
structure TlbReady (m : Mm) (d : ℕ) (l : List ℕ) : Prop extends TlbTables m d where
  list : FreeList m l
  apartList : ∀ g, m.WalkFrame d g → g ∉ l

/-- One entry is replaced. -/
def oneAt (p : PtePtr) (w : BitVec 32) (p' : PtePtr) : Option (BitVec 32) :=
  if p' = p then some w else none

/-- **`page_insert`** where there is no entry in the directory. -/
theorem pageInsertOn_absent {c : Core} {d pp : ℕ} {l : List ℕ} {va perm : BitVec 32}
    (hr : TlbReady c.vm.mm d l) (hP : isPresent (c.vm.mm.word d (vpn va / 1024)) = false) :
    Ends (fun _ => True)
      (fun r => r.2.tlb = c.tlb ∧ ∃ f, (∀ p ≠ ⟨d, vpn va / 1024⟩, f p = none) ∧
        Rewritten c.vm.mm r.2.vm.mm d f)
      (pageInsertOn c (some d) (some pp) va perm) := by
  have hP' : ¬ isPresent (c.vm.pte ⟨d, vpn va / 1024⟩) = true := by
    rw [Vm.pte, hP]
    exact Bool.false_ne_true
  have hzero : ∀ p : PtePtr, ∀ s : Vm, s.pte p = 0 →
      ¬ (isPresent (s.pte p) = true ∧ pteAddr (s.pte p) ≠ page2pa pp) := by
    rintro p s h0 ⟨hc, -⟩
    rw [h0] at hc
    exact absurd hc (by decide)
  unfold pageInsertOn
  refine ends_ite (fun _ => True.intro) fun _ => ?_
  rw [ends_bind]
  unfold pgdirWalk
  dsimp only
  rw [pdx_eq, if_neg hP']
  cases hperm : isHuge perm with
  | true =>
      rw [if_pos rfl]
      have h0 : (c.vm.setPte ⟨d, vpn va / 1024⟩ 0).pte ⟨d, vpn va / 1024⟩ = 0 :=
        (Vm.word_setPte ..).trans (if_pos ⟨rfl, rfl⟩)
      change Ends _ _ (ite _ _ _)
      rw [if_neg (hzero _ _ h0)]
      refine ⟨rfl, oneAt ⟨d, vpn va / 1024⟩ (newPte pp perm), fun p hp => if_neg hp, fun g hg k =>
        ?_⟩
      refine (word_insertEnd ..).trans ?_
      rw [oneAt]
      split
      · rfl
      · rename_i hne
        exact (Vm.word_setPte ..).trans (if_neg fun hc => hne (PtePtr.mk.injEq .. ▸ hc))
  | false =>
      rw [if_neg Bool.false_ne_true, ends_bind]
      refine (pageAlloc_drawn hr.list (by decide) (by decide)).post ?_
      rintro ⟨pg, m₁⟩ (heq | ⟨t, htl, hpg, htaken, -⟩)
      · obtain ⟨rfl, rfl⟩ := Prod.mk.inj heq
        exact ⟨rfl, fun _ => none, fun _ _ => rfl, Rewritten.refl _ d⟩
      · obtain rfl : pg = some t := hpg
        have htaken : Taken c.vm.mm m₁ allocZero t := htaken
        dsimp only
        generalize hs₃ : (({ c.vm with mm := m₁ } : Vm).writePte ⟨d, vpn va / 1024⟩ va t
          (page2pa t ||| pteP ||| pteW ||| pteU)).setRef t _ = s₃
        have hne : ∀ g, c.vm.mm.WalkFrame d g → g ≠ t := fun g hg hc => hr.apartList g hg (hc ▸ htl)
        have hword : ∀ g k, s₃.mm.word g k = if g = d ∧ k = vpn va / 1024 then tablePde t
            else m₁.word g k := by
          intro g k
          rw [← hs₃]
          exact @Vm.word_writePte { c.vm with mm := m₁ } ⟨d, vpn va / 1024⟩ va _ t g k
        have hdt : d ≠ t := hne d (Or.inl rfl)
        have hself : s₃.pte ⟨d, vpn va / 1024⟩ = tablePde t := (hword _ _).trans (if_pos ⟨rfl, rfl⟩)
        have ht : t < 2 ^ 20 := Nat.lt_of_lt_of_le (hr.list.listed t htl).1 c.vm.mm.npages_le
        have h0 : s₃.pte ⟨t, ptx va⟩ = 0 := by
          refine (hword t _).trans ?_
          rw [if_neg fun hc => hdt hc.1.symm]
          exact Mm.word_of_zero (htaken.zero (by decide)) _
        unfold walkEnd
        rw [hself, isHuge_tablePde, pgnum_pteAddr, pgnum_tablePde ht, Bool.or_false,
          if_neg (by decide)]
        simp only [ends_bind]
        unfold kaddr
        refine ends_ite (fun _ => True.intro) fun _ => ?_
        change Ends _ _ (ite _ _ _)
        rw [if_neg (hzero _ _ h0)]
        refine ⟨rfl, oneAt ⟨d, vpn va / 1024⟩ (tablePde t), fun p hp => if_neg hp, fun g hg k => ?_⟩
        have hg' := hne g hg
        refine (word_insertEnd ..).trans ?_
        rw [if_neg fun hc => hg' (congrArg PtePtr.frame hc), hword,
          Mm.word_of_mem (htaken.mem g hg') k, oneAt]
        by_cases hgk : g = d ∧ k = vpn va / 1024
        · rw [if_pos hgk, if_pos (by rw [hgk.1, hgk.2])]
          rfl
        · rw [if_neg hgk, if_neg fun hc => hgk ⟨congrArg PtePtr.frame hc, congrArg PtePtr.idx hc⟩]
          rfl

/-- **After `page_insert` no entry of the TLB is stale if and only if the condition holds.** -/
theorem pageInsertOn_fresh_iff {c : Core} {e d pp : ℕ} {l : List ℕ} {va perm : BitVec 32}
    (hr : TlbReady c.vm.mm d l) (hcur : c.curenv = some e) (hd : c.vm.pgdir e = some d)
    (hva : va < uTop) (hf : c.tlb.Fresh c.vm.mm d) :
    Ends (fun _ => True) (fun r => r.2.tlb.Fresh r.2.vm.mm d ↔ InsertFits c d pp va perm)
      (pageInsertOn c (some d) (some pp) va perm) := by
  have hi : vpn va / 1024 < 1024 := by
    have := vpn_lt va
    omega
  cases hP : isPresent (c.vm.mm.word d (vpn va / 1024)) with
  | true =>
      refine (pageInsertOn_inserted hr.toTlbTables hcur hd hP).post fun r h => ?_
      exact h.fresh_iff hr.toTlbTables hva hP hf
  | false =>
      refine (pageInsertOn_absent hr hP).post fun r h => ?_
      obtain ⟨htlb, f, hnone, hrew⟩ := h
      rw [htlb]
      refine iff_of_true (hf.of_absent hP hrew hnone)
        ⟨fun hc => ?_, fun e' he => ?_, fun _ q hq hgroup hsmall => ?_⟩
      · rw [hP] at hc
        exact nomatch hc
      · obtain ⟨hc, -, -⟩ := hf.huge _ hi e' he
        rw [hP] at hc
        exact nomatch hc
      · obtain ⟨e', he⟩ := Option.ne_none_iff_exists'.1 hsmall
        obtain ⟨w, hw, -, -⟩ := hf.small q hq e' he
        obtain ⟨hc, -, -⟩ := Mm.leaf_eq_some hw
        rw [hgroup, hP] at hc
        exact nomatch hc

/-! ### `vma_change_perm` -/

/-- The entry with the frame of `w` and the permissions `perm`. -/
def renew (perm w : BitVec 32) : BitVec 32 := newPte (pgnum w) perm

theorem renew_eq (perm w : BitVec 32) : renew perm w = pteAddr w ||| perm ||| pteP := by
  rw [renew, newPte, (pteAddr_eq_page2pa_iff (pgnum_lt w)).2 rfl]

theorem renew_renew (perm w : BitVec 32) : renew perm (renew perm w) = renew perm w := by
  rw [renew_eq, renew_eq]
  unfold pteAddr
  ext k hk
  simp only [BitVec.getElem_or, BitVec.getElem_and, BitVec.getElem_not]
  cases w[k] <;> cases perm[k] <;> cases pteP[k] <;> cases (0xFFF#32)[k] <;> rfl

/-- The pages among `n` pages at `q` that `vma_change_perm` comes to: it stops at the first one
without a page table. -/
def Mm.walked (m : Mm) (d : ℕ) : ℕ → ℕ → List ℕ
  | 0, _ => []
  | n + 1, q =>
      match m.leaf d q with
      | none => []
      | some (w, _) => (if isPresent w then [q] else []) ++ m.walked d n (q + 1)

/-- The entries of the pages get the permissions `perm`. -/
def Mm.renewAll (m : Mm) (d : ℕ) (perm : BitVec 32) (qs : List ℕ) (p : PtePtr) :
    Option (BitVec 32) :=
  if p ∈ qs.map (m.leafPtr d) then some (renew perm (m.word p.frame p.idx)) else none

/-- **The state after the permissions of the pages have been changed**, of pages of the size that
`perm` asks for. -/
structure RenewedAll (c₀ c : Core) (d : ℕ) (perm : BitVec 32) (qs : List ℕ) : Prop where
  same : SameCore c₀ c d
  tlb : c.tlb = c₀.tlb
  words : Rewritten c₀.vm.mm c.vm.mm d (c₀.vm.mm.renewAll d perm qs)
  low : ∀ q ∈ qs, q / 1024 < pdx uTop ∧ isPresent (c₀.vm.mm.word d (q / 1024)) = true ∧
    isHuge (c₀.vm.mm.word d (q / 1024)) = isHuge perm
  present : ∀ q ∈ qs, isPresent (c₀.vm.pte (c₀.vm.mm.leafPtr d q)) = true

/-- The condition for it: every page cached through one of the entries finds its frame and its
permissions in the new one. -/
structure RenewFits (c : Core) (d : ℕ) (perm : BitVec 32) (qs : List ℕ) : Prop where
  small : ∀ q ∈ qs, ∀ q' < 2 ^ 20, ∀ e, c.tlb.small q' = some e →
    c.vm.mm.leafPtr d q' = c.vm.mm.leafPtr d q →
    Covers e (renew perm (c.vm.pte (c.vm.mm.leafPtr d q)))
  huge : ∀ q ∈ qs, ∀ e, c.tlb.huge (q / 1024) = some e →
    Covers e (renew perm (c.vm.mm.word d (q / 1024)))

namespace RenewedAll

variable {c₀ c : Core} {d : ℕ} {perm : BitVec 32} {qs : List ℕ}

theorem start (ht : TlbTables c₀.vm.mm d) : RenewedAll c₀ c₀ d perm [] where
  same := ⟨rfl, fun _ => rfl, ht.unmarked⟩
  tlb := rfl
  words := Rewritten.refl _ d
  low _ hq := (List.not_mem_nil hq).elim
  present _ hq := (List.not_mem_nil hq).elim

/-- An entry of the directory changes only for a 4 MB page. -/
theorem renewAll_dir (h : RenewedAll c₀ c d perm qs) (ht : TlbTables c₀.vm.mm d) (i : ℕ) :
    (c₀.vm.mm.renewAll d perm qs ⟨d, i⟩ = none) ∨
      (isHuge (c₀.vm.mm.word d i) = true ∧ isHuge perm = true ∧ (∃ q ∈ qs, i = q / 1024) ∧
        c₀.vm.mm.renewAll d perm qs ⟨d, i⟩ = some (renew perm (c₀.vm.mm.word d i))) := by
  unfold Mm.renewAll
  split
  · rename_i hmem
    obtain ⟨q, hq, heq⟩ := List.mem_map.1 hmem
    obtain ⟨hlow, hP, hsize⟩ := h.low q hq
    obtain ⟨hH, rfl⟩ := ht.leafPtr_dir hlow hP heq
    exact Or.inr ⟨hH, hsize.symm.trans hH, ⟨q, hq, rfl⟩, rfl⟩
  · exact Or.inl rfl

/-- What a walk finds for a 4 KB page. -/
theorem leaf_small (h : RenewedAll c₀ c d perm qs) (ht : TlbTables c₀.vm.mm d) {q : ℕ}
    (hq : q < 2 ^ 20) {w : BitVec 32} (hleaf : c₀.vm.mm.leaf d q = some (w, false)) :
    c.vm.mm.leaf d q =
      some ((c₀.vm.mm.renewAll d perm qs (c₀.vm.mm.leafPtr d q)).getD w, false) := by
  refine h.words.leaf_small hq ((h.renewAll_dir ht _).resolve_right fun hc => ?_) hleaf
  rw [(Mm.leaf_eq_some hleaf).2.1] at hc
  exact nomatch hc.1

/-- **After the change no entry of the TLB is stale if and only if the condition holds.** -/
theorem fresh_iff (h : RenewedAll c₀ c d perm qs) (ht : TlbTables c₀.vm.mm d)
    (hf : c₀.tlb.Fresh c₀.vm.mm d) :
    c.tlb.Fresh c.vm.mm d ↔ RenewFits c₀ d perm qs := by
  rw [h.tlb]
  constructor
  · intro hf'
    refine ⟨fun q hq q' hq' e he hptr => ?_, fun q hq e he => ?_⟩
    · obtain ⟨w, hw, -, -⟩ := hf.small q' hq' e he
      obtain ⟨w', hw', -, hcov⟩ := hf'.small q' hq' e he
      rw [h.leaf_small ht hq' hw, hptr, Mm.renewAll, if_pos (List.mem_map.2 ⟨q, hq, rfl⟩)] at hw'
      rw [← (Prod.mk.inj (Option.some.inj hw')).1] at hcov
      exact hcov
    · obtain ⟨hlow, -, -⟩ := h.low q hq
      have hi : q / 1024 < 1024 := Nat.lt_trans hlow (by rw [pdx_uTop]; decide)
      obtain ⟨-, hH, -⟩ := hf.huge _ hi e he
      obtain ⟨-, -, hcov⟩ := hf'.huge _ hi e he
      rw [h.words.word_dir, Mm.renewAll, if_pos (List.mem_map.2 ⟨q, hq, Mm.leafPtr_huge hH⟩)]
        at hcov
      exact hcov
  · intro hfit
    refine ⟨fun q hq e he => ?_, fun i hi e he => ?_⟩
    · obtain ⟨w, hw, hPw, hcov⟩ := hf.small q hq e he
      rw [h.leaf_small ht hq hw, Mm.renewAll]
      split
      · rename_i hmem
        obtain ⟨q', hq', heq⟩ := List.mem_map.1 hmem
        refine ⟨_, rfl, isPresent_newPte _ perm, ?_⟩
        rw [← heq]
        exact hfit.small q' hq' q hq e he heq.symm
      · exact ⟨w, rfl, hPw, hcov⟩
    · obtain ⟨hPi, hHi, hcov⟩ := hf.huge i hi e he
      rcases h.renewAll_dir ht i with hnone | ⟨-, hperm, ⟨q, hq, rfl⟩, hsome⟩
      · rw [h.words.word_dir_same hnone]
        exact ⟨hPi, hHi, hcov⟩
      · rw [h.words.word_dir, hsome]
        exact ⟨isPresent_newPte _ perm, (isHuge_newPte _ perm).trans hperm, hfit.huge q hq e he⟩

theorem dir_same (h : RenewedAll c₀ c d perm qs) (ht : TlbTables c₀.vm.mm d) (i : ℕ) :
    c.vm.mm.word d i = c₀.vm.mm.word d i ∨
      (isPresent (c₀.vm.mm.word d i) = true ∧ isHuge (c₀.vm.mm.word d i) = true ∧
        isHuge (c.vm.mm.word d i) = true ∧ isPresent (c.vm.mm.word d i) = true ∧
          c.vm.mm.word d i = renew perm (c₀.vm.mm.word d i)) := by
  rcases h.renewAll_dir ht i with hnone | ⟨hH, hperm, ⟨q, hq, rfl⟩, hsome⟩
  · exact Or.inl (h.words.word_dir_same hnone)
  · have hword : c.vm.mm.word d (q / 1024) = renew perm (c₀.vm.mm.word d (q / 1024)) := by
      rw [h.words.word_dir, hsome]
      rfl
    rw [hword]
    exact Or.inr ⟨(h.low q hq).2.1, hH, (isHuge_newPte _ perm).trans hperm, isPresent_newPte _ perm,
      rfl⟩

theorem sameTables (h : RenewedAll c₀ c d perm qs) (ht : TlbTables c₀.vm.mm d) :
    SameTables c₀.vm.mm c.vm.mm d := by
  intro i
  rcases h.dir_same ht i with heq | ⟨-, hH, hH', -⟩
  · rw [Mm.HasTable, Mm.HasTable, heq]
    exact ⟨Iff.rfl, fun _ => rfl⟩
  · refine ⟨⟨fun hc => ?_, fun hc => ?_⟩, fun hc => ?_⟩
    · cases hH'.symm.trans hc.2
    · cases hH.symm.trans hc.2
    · cases hH.symm.trans hc.2

/-- The place of an entry and its word, up to the permissions. -/
theorem leafPtr_same (h : RenewedAll c₀ c d perm qs) (ht : TlbTables c₀.vm.mm d) {q : ℕ}
    (hq : q < 2 ^ 20) {w : BitVec 32} {b : Bool} (hleaf : c₀.vm.mm.leaf d q = some (w, b)) :
    c.vm.mm.leafPtr d q = c₀.vm.mm.leafPtr d q ∧ isPresent (c.vm.mm.word d (q / 1024)) = true ∧
      isHuge (c.vm.mm.word d (q / 1024)) = b ∧
      ∃ w', c.vm.mm.leaf d q = some (w', b) ∧
        (w' = w ∨ isPresent w = true ∧ w' = renew perm w) := by
  obtain ⟨hP, hH, hw⟩ := Mm.leaf_eq_some hleaf
  cases b with
  | true =>
      rw [Mm.leafPtr_huge hH] at hw
      have hw : w = c₀.vm.mm.word d (q / 1024) := hw
      rcases h.dir_same ht (q / 1024) with heq | ⟨-, -, hH', hP', heq⟩
      · refine ⟨by rw [Mm.leafPtr, Mm.leafPtr, heq], by rw [heq, hP], by rw [heq, hH],
          w, ?_, Or.inl rfl⟩
        rw [Mm.leaf, heq, if_pos hP, if_pos hH, hw]
      · refine ⟨by rw [Mm.leafPtr_huge hH', Mm.leafPtr_huge hH], hP', hH',
          c.vm.mm.word d (q / 1024), ?_,
          Or.inr ⟨by rw [hw, hP], by rw [heq, hw]⟩⟩
        rw [Mm.leaf, if_pos hP', if_pos hH']
  | false =>
      have heq := ((h.sameTables ht) (q / 1024)).2 ⟨hP, hH⟩
      refine ⟨by rw [Mm.leafPtr, Mm.leafPtr, heq], by rw [heq, hP], by rw [heq, hH], _,
        h.leaf_small ht hq hleaf, ?_⟩
      rw [Mm.renewAll, ← hw]
      split
      · rename_i hmem
        obtain ⟨q', hq', hptr⟩ := List.mem_map.1 hmem
        refine Or.inr ⟨?_, rfl⟩
        rw [hw, ← hptr]
        exact h.present q' hq'
      · exact Or.inl rfl

/-- **One more page gets the permissions.** -/
theorem change (h : RenewedAll c₀ c d perm qs) (ht : TlbTables c₀.vm.mm d) {e : ℕ}
    (hcur : c₀.curenv = some e) (hd : c₀.vm.pgdir e = some d) {va w w' : BitVec 32}
    (hva : va < uTop) (hleaf : c₀.vm.mm.leaf d (vpn va) = some (w, isHuge perm))
    (hPw : isPresent w = true) (hw' : c.vm.mm.leaf d (vpn va) = some (w', isHuge perm)) :
    Ends (fun _ => True) (fun r => RenewedAll c₀ r.2 d perm (qs ++ [vpn va]))
      (pageInsertOn c (some d) (some (pgnum w')) va perm) := by
  have hlow : vpn va / 1024 < pdx uTop := pdx_eq va ▸ pdx_lt_of_lt hva
  obtain ⟨hptr, hP, hH, w₁, hw₁, hrenew⟩ := h.leafPtr_same ht (vpn_lt va) hleaf
  obtain rfl : w₁ = w' := (Prod.mk.inj (Option.some.inj (hw₁.symm.trans hw'))).1
  obtain ⟨hP₀, hH₀, hw⟩ := Mm.leaf_eq_some hleaf
  obtain ⟨-, -, hword⟩ := Mm.leaf_eq_some hw'
  have hnew : newPte (pgnum w₁) perm = renew perm w := by
    rcases hrenew with rfl | ⟨-, rfl⟩
    · rfl
    · exact renew_renew perm w
  have hins : c.vm.mm.insertPtr d (vpn va) (isHuge perm) = c.vm.mm.leafPtr d (vpn va) := by
    cases hperm : isHuge perm with
    | false => rfl
    | true =>
        rw [hperm] at hH
        exact (Mm.leafPtr_huge hH).symm
  have hstay : ¬ FrameMoves c d (pgnum w₁) va perm := by
    rintro ⟨-, hne⟩
    rw [hins, Vm.pte, ← hword] at hne
    exact hne ((pteAddr_eq_page2pa_iff (pgnum_lt w₁)).2 rfl)
  have hsame := h.sameTables ht
  refine (pageInsertOn_inserted (ht.congr hsame h.same.marks) (h.same.curenv.trans hcur)
    ((h.same.pgdir e).trans hd) hP).post ?_
  rintro ⟨ok, c'⟩ hi
  have hi : InsertedOn c c' d (pgnum w₁) va perm := hi
  refine ⟨⟨hi.same.curenv.trans h.same.curenv, fun e => (hi.same.pgdir e).trans (h.same.pgdir e),
    fun g hg => ?_⟩, ?_,
    fun g hg k => ?_, fun q hmem => ?_, fun q hmem => ?_⟩
  · exact hi.same.marks g (hsame.walkFrame_iff.2 hg)
  · exact (hi.tlb.trans (if_neg hstay)).trans h.tlb
  · have hmem : (⟨g, k⟩ : PtePtr) ∈ (qs ++ [vpn va]).map (c₀.vm.mm.leafPtr d) ↔
        ⟨g, k⟩ ∈ qs.map (c₀.vm.mm.leafPtr d) ∨ ⟨g, k⟩ = c₀.vm.mm.leafPtr d (vpn va) := by
      rw [List.map_append, List.map_singleton, List.mem_append, List.mem_singleton]
    rw [hi.words g (hsame.walkFrame_iff.2 hg) k, insertWords, hins, hptr, if_neg hstay,
      h.words g hg k, Mm.renewAll, Mm.renewAll]
    by_cases hgk : (⟨g, k⟩ : PtePtr) = c₀.vm.mm.leafPtr d (vpn va)
    · rw [if_pos hgk, if_pos (hmem.2 (Or.inr hgk)), hnew, hw, ← hgk]
      rfl
    · rw [if_neg hgk]
      exact congrArg (fun x : Option (BitVec 32) => x.getD _)
        (if_congr ((hmem.trans (or_iff_left hgk)).symm) rfl rfl)
  · rcases List.mem_append.1 hmem with hmem | hmem
    · exact h.low q hmem
    · rw [List.mem_singleton.1 hmem]
      exact ⟨hlow, hP₀, hH₀⟩
  · rcases List.mem_append.1 hmem with hmem | hmem
    · exact h.present q hmem
    · rw [List.mem_singleton.1 hmem, Vm.pte, ← hw]
      exact hPw

end RenewedAll

/-- **A rule for one round of `vma_change_perm`.**  The loop ends where there is no page table; an
entry that is not present is passed over; the page of one that is goes through `page_insert`. -/
theorem changePermOn_round {c : Core} {e d n i : ℕ} {va perm : BitVec 32} {Q : Core → Prop}
    (hd : c.vm.pgdir e = some d) (hnone : c.vm.mm.leaf d (vpn (pageAt va i)) = none → Q c)
    (hskip : ∀ w b, c.vm.mm.leaf d (vpn (pageAt va i)) = some (w, b) → isPresent w = false →
      Ends (fun _ => True) Q (changePermOn e va perm n (i + 1) c))
    (hpage : ∀ w b, c.vm.mm.leaf d (vpn (pageAt va i)) = some (w, b) → isPresent w = true →
      Ends (fun _ => True) (fun r => Ends (fun _ => True) Q (changePermOn e va perm n (i + 1) r.2))
        (pageInsertOn c (some d) (some (pgnum w)) (pageAt va i) perm)) :
    Ends (fun _ => True) Q (changePermOn e va perm (n + 1) i c) := by
  rw [changePermOn, hd, ends_bind]
  refine (pgdirFind_leaf c.vm d (pageAt va i)).post ?_
  rintro r (⟨rfl, hleaf⟩ | ⟨rfl, hP⟩)
  · exact hnone hleaf
  cases hleaf : c.vm.mm.leaf d (vpn (pageAt va i)) with
  | none =>
      rw [Mm.leaf_eq_none, hP] at hleaf
      cases hleaf
  | some p =>
      obtain ⟨w, b⟩ := p
      have hpte : c.vm.pte (c.vm.mm.leafPtr d (vpn (pageAt va i))) = w :=
        (Mm.leaf_eq_some hleaf).2.2.symm
      dsimp only
      rw [hpte]
      cases hw : isPresent w with
      | false =>
          rw [if_neg Bool.false_ne_true]
          exact hskip w b hleaf hw
      | true =>
          rw [if_pos rfl, ends_bind]
          unfold pageLookup
          rw [if_neg (fun hc => by cases hc), ends_bind]
          -- the page is looked up again, with the same result
          refine (pgdirFind_leaf c.vm d (pageAt va i)).post ?_
          rintro r (⟨-, hnone⟩ | ⟨rfl, -⟩)
          · rw [hleaf] at hnone
            cases hnone
          · dsimp only
            rw [ends_bind]
            refine (pa2page_ends _ _).post fun pp hpp => ?_
            rw [hpte, pgnum_pteAddr] at hpp
            rw [ends_pure, hpp]
            dsimp only
            rw [ends_bind]
            exact hpage w b hleaf hw

/-- **The loop of `vma_change_perm`**, when the pages have the size that `perm` asks for. -/
theorem changePermOn_renewed {c₀ : Core} {e d : ℕ} {perm : BitVec 32} (ht : TlbTables c₀.vm.mm d)
    (hcur : c₀.curenv = some e) (hd : c₀.vm.pgdir e = some d) {va : BitVec 32} :
    ∀ (n i : ℕ) (c : Core) (qs : List ℕ), RenewedAll c₀ c d perm qs → LowPages va i n →
      (∀ q ∈ c₀.vm.mm.walked d n (vpn va + i),
        isHuge (c₀.vm.mm.word d (q / 1024)) = isHuge perm) →
      Ends (fun _ => True)
        (fun c' => RenewedAll c₀ c' d perm (qs ++ c₀.vm.mm.walked d n (vpn va + i)))
        (changePermOn e va perm n i c) := by
  intro n
  induction n with
  | zero =>
      intro i c qs h _ _
      rw [Mm.walked, List.append_nil]
      exact h
  | succ n ih =>
      intro i c qs h hend hsize
      obtain ⟨hva, hvpn⟩ := pageAt_lt hend
      have hrest : ∀ (c' : Core) (qs' : List ℕ), RenewedAll c₀ c' d perm qs' →
          (∀ q ∈ c₀.vm.mm.walked d n (vpn (pageAt va i) + 1),
            isHuge (c₀.vm.mm.word d (q / 1024)) = isHuge perm) →
          Ends (fun _ => True)
            (fun c' => RenewedAll c₀ c' d perm (qs' ++ c₀.vm.mm.walked d n (vpn (pageAt va i) + 1)))
            (changePermOn e va perm n (i + 1) c') := by
        intro c' qs' h' hsize'
        have hnext : vpn (pageAt va i) + 1 = vpn va + (i + 1) := by rw [hvpn, Nat.add_assoc]
        rw [hnext] at hsize' ⊢
        exact ih (i + 1) c' qs' h' hend.succ hsize'
      rw [← hvpn] at hsize ⊢
      have hd' : c.vm.pgdir e = some d := (h.same.pgdir e).trans hd
      cases hleaf : c₀.vm.mm.leaf d (vpn (pageAt va i)) with
      | none =>
          have hnone : c.vm.mm.leaf d (vpn (pageAt va i)) = none := by
            rw [Mm.leaf_eq_none]
            rcases h.dir_same ht (vpn (pageAt va i) / 1024) with heq | ⟨hP, -⟩
            · rw [heq]
              exact Mm.leaf_eq_none.1 hleaf
            · rw [Mm.leaf_eq_none.1 hleaf] at hP
              cases hP
          rw [Mm.walked, hleaf, List.append_nil]
          refine changePermOn_round hd' (fun _ => h) (fun w b hw => ?_) fun w b hw => ?_
          · exact nomatch hnone.symm.trans hw
          · exact nomatch hnone.symm.trans hw
      | some p =>
          obtain ⟨w, b⟩ := p
          obtain ⟨-, -, -, w', hw', hsame⟩ := h.leafPtr_same ht (vpn_lt _) hleaf
          have hH₀ := (Mm.leaf_eq_some hleaf).2.1
          rw [Mm.walked, hleaf] at hsize ⊢
          dsimp only at hsize ⊢
          refine changePermOn_round hd' (fun hnone => ?_) (fun w₁ b₁ hw₁ hP => ?_)
            fun w₁ b₁ hw₁ hP => ?_
          · exact nomatch hnone.symm.trans hw'
          · obtain ⟨rfl, rfl⟩ := Prod.mk.inj (Option.some.inj (hw₁.symm.trans hw'))
            rcases hsame with rfl | ⟨-, rfl⟩
            · rw [hP, if_neg Bool.false_ne_true, List.nil_append] at hsize
              rw [hP, if_neg Bool.false_ne_true, List.nil_append]
              exact hrest c qs h hsize
            · exact nomatch hP.symm.trans (isPresent_newPte _ perm)
          · obtain ⟨rfl, rfl⟩ := Prod.mk.inj (Option.some.inj (hw₁.symm.trans hw'))
            have hPw : isPresent w = true := by
              rcases hsame with rfl | ⟨hPw, -⟩
              · exact hP
              · exact hPw
            rw [hPw, if_pos rfl] at hsize ⊢
            obtain rfl : b₁ = isHuge perm :=
              hH₀.symm.trans (hsize _ (List.mem_append_left _ (List.mem_singleton.2 rfl)))
            refine (h.change ht hcur hd hva hleaf hPw hw').post fun r h' => ?_
            rw [← List.append_assoc]
            exact hrest r.2 _ h' fun q hq => hsize q (List.mem_append_right _ hq)

/-! ### The four functions -/

/-- A call of one of the functions that write entries, on the directory of `curenv`. -/
inductive TlbCall
  | insert (pp : ℕ) (va perm : BitVec 32)
  | remove (va : BitVec 32)
  | changePerm (v : ℕ) (perm : BitVec 32)
  | removePages (va size : BitVec 32)

namespace TlbCall

/-- The call in the environment `e`. -/
def run (c : Core) (e : ℕ) : TlbCall → Except Crash Core
  | insert pp va perm => do
      let r ← pageInsertOn c (c.vm.pgdir e) (some pp) va perm
      pure r.2
  | remove va => pageRemoveOn c (c.vm.pgdir e) va
  | changePerm v perm => vmaChangePermOn c e v perm
  | removePages va size => vmaRemovePagesOn c e va size

/-- The addresses are those of user pages. -/
def Low (c : Core) (e : ℕ) : TlbCall → Prop
  | insert _ va _ => va < uTop
  | remove va => va < uTop
  | changePerm v _ =>
      (c.vm.vma e v).va.toNat + (0 + pageCount (c.vm.vma e v).len) * 4096 ≤ uTop.toNat
  | removePages va size => va.toNat + (0 + pageCount size) * 4096 ≤ uTop.toNat

/-- The pages that get new permissions have the size that these ask for. -/
def SameSize (c : Core) (e d : ℕ) : TlbCall → Prop
  | changePerm v perm =>
      ∀ q ∈ c.vm.mm.walked d (pageCount (c.vm.vma e v).len) (vpn (c.vm.vma e v).va),
      isHuge (c.vm.mm.word d (q / 1024)) = isHuge perm
  | _ => True

/-- **The condition.** -/
def Fits (c : Core) (e d : ℕ) : TlbCall → Prop
  | insert pp va perm => InsertFits c d pp va perm
  | remove va => RemoveFits c d (if c.vm.mm.leaf d (vpn va) = none then [] else [vpn va])
  | changePerm v perm => SameSize c e d (changePerm v perm) ∧
      RenewFits c d perm (c.vm.mm.walked d (pageCount (c.vm.vma e v).len) (vpn (c.vm.vma e v).va))
  | removePages va size => RemoveFits c d (c.vm.mm.removed d (pageCount size) (vpn va))

end TlbCall

/-- `page_remove` of one page. -/
theorem pageRemoveOn_fresh_iff {c : Core} {e d : ℕ} {va : BitVec 32} (ht : TlbTables c.vm.mm d)
    (hcur : c.curenv = some e) (hd : c.vm.pgdir e = some d) (hva : va < uTop)
    (hf : c.tlb.Fresh c.vm.mm d) :
    Ends (fun _ => True)
      (fun c' => c'.tlb.Fresh c'.vm.mm d ↔
        RemoveFits c d (if c.vm.mm.leaf d (vpn va) = none then [] else [vpn va]))
      (pageRemoveOn c (some d) va) := by
  cases hP : isPresent (c.vm.mm.word d (vpn va / 1024)) with
  | false =>
      have hleaf := Mm.leaf_eq_none.2 hP
      rw [if_pos hleaf]
      refine (pageRemoveOn_ends hcur hd ht.unmarked).post ?_
      rintro c' ⟨-, ⟨-, rfl⟩ | ⟨hc, -⟩⟩
      · exact iff_of_true hf fun q hq => (List.not_mem_nil hq).elim
      · rw [hP] at hc
        exact nomatch hc
  | true =>
      have hleaf : c.vm.mm.leaf d (vpn va) ≠ none := by
        rw [Ne, Mm.leaf_eq_none, hP]
        exact fun hc => nomatch hc
      rw [if_neg hleaf]
      exact ((RemovedAll.start ht).remove ht hcur hd hva List.not_mem_nil
        (fun _ => List.not_mem_nil) hP).post
        fun c' h' => h'.fresh_iff ht hf

/-- `vma_change_perm` of one area. -/
theorem vmaChangePermOn_fresh_iff {c : Core} {e d v : ℕ} {perm : BitVec 32}
    (ht : TlbTables c.vm.mm d) (hcur : c.curenv = some e) (hd : c.vm.pgdir e = some d)
    (hlow : TlbCall.Low c e (.changePerm v perm))
    (hsize : TlbCall.SameSize c e d (.changePerm v perm)) (hf : c.tlb.Fresh c.vm.mm d) :
    Ends (fun _ => True)
      (fun c' => c'.tlb.Fresh c'.vm.mm d ↔
        RenewFits c d perm (c.vm.mm.walked d (pageCount (c.vm.vma e v).len)
          (vpn (c.vm.vma e v).va)))
      (vmaChangePermOn c e v perm) := by
  let setPerm : Space → Space := fun sp => sp.modVma v fun v => { v with perm := perm }
  have hvma : (c.vm.modSpace e setPerm).vma e v = { c.vm.vma e v with perm := perm } := by
    refine (congrArg (fun sp : Space => sp.vmas v) (Function.update_self e _ c.vm.envs)).trans ?_
    exact Function.update_self ..
  have hstart : RenewedAll { c with vm := c.vm.modSpace e setPerm }
      { c with vm := c.vm.modSpace e setPerm } d perm [] :=
    RenewedAll.start ht
  have hpgdir : (c.vm.modSpace e setPerm).pgdir e = some d :=
    (@pgdir_modSpace c.vm e setPerm (fun _ => rfl) e).trans hd
  have hend := @changePermOn_renewed { c with vm := c.vm.modSpace e setPerm } e d perm ht hcur
    hpgdir (c.vm.vma e v).va
    (pageCount (c.vm.vma e v).len) 0 _ [] hstart (LowPages.of_le hlow) hsize
  unfold vmaChangePermOn
  dsimp only
  rw [hvma]
  exact hend.post fun c' h' => (h'.fresh_iff ht hf).trans
    ⟨fun h => ⟨h.small, h.huge⟩, fun h => ⟨h.small, h.huge⟩⟩

/-- **Stale entries of the TLB**: when the TLB agrees with the page tables, a call leaves no stale
entry if the condition holds; and only then, unless `vma_change_perm` is to change the size of a
page. -/
theorem tlb_fresh_iff (c c' : Core) (e d : ℕ) (l : List ℕ) (call : TlbCall)
    (hcur : c.curenv = some e) (hd : c.vm.pgdir e = some d) (hr : TlbReady c.vm.mm d l)
    (hlow : call.Low c e) (hf : c.tlb.Fresh c.vm.mm d) (hrun : call.run c e = .ok c') :
    (call.Fits c e d → c'.tlb.Fresh c'.vm.mm d) ∧
      (call.SameSize c e d → c'.tlb.Fresh c'.vm.mm d → call.Fits c e d) := by
  cases call with
  | insert pp va perm =>
      have hend := @pageInsertOn_fresh_iff c e d pp l va perm hr hcur hd hlow hf
      rw [TlbCall.run, hd] at hrun
      cases hx : pageInsertOn c (some d) (some pp) va perm with
      | error a =>
          rw [hx] at hrun
          exact nomatch hrun
      | ok r =>
          rw [hx] at hrun
          obtain rfl : r.2 = c' := Except.ok.inj hrun
          have hiff := hend.of_ok hx
          exact ⟨hiff.2, fun _ => hiff.1⟩
  | remove va =>
      rw [TlbCall.run, hd] at hrun
      have hiff := (pageRemoveOn_fresh_iff hr.toTlbTables hcur hd hlow hf).of_ok hrun
      exact ⟨hiff.2, fun _ => hiff.1⟩
  | changePerm v perm =>
      have hcore :=
        fun hsize => (vmaChangePermOn_fresh_iff hr.toTlbTables hcur hd hlow hsize hf).of_ok hrun
      exact ⟨fun hfit => (hcore hfit.1).2 hfit.2, fun hsize hfresh =>
        ⟨hsize, (hcore hsize).1 hfresh⟩⟩
  | removePages va size =>
      have hend := removePagesOn_removed hr.toTlbTables hcur hd (pageCount size) 0 c []
        (RemovedAll.start hr.toTlbTables) (LowPages.of_le hlow)
        fun q hq => (List.not_mem_nil hq).elim
      have hiff := (hend.of_ok hrun).fresh_iff hr.toTlbTables hf
      exact ⟨hiff.2, fun _ => hiff.1⟩

/-! ### A page that loses the permission to write -/

/-- The words of an address space with one page: the directory is frame 1, its page table frame 2,
and the page at `0x1000` is in frame 3, writable. -/
def onePageWord (f i : ℕ) : BitVec 32 :=
  if f = 1 ∧ i = 0 then 0x2007 else if f = 2 ∧ i = 1 then 0x3007 else 0

/-- The page is in the TLB. -/
def onePageCore : Core where
  vm := .ofWords 4 frames_four onePageWord fun _ =>
    { Space.ofDir 1 with
      vmas := fun _ => ⟨.anon, 0x1000, 0x1000, pteW ||| pteU, none, 0, 0, 0, false⟩,
      allocVmaList := some 0 }
  curenv := some 0
  tlb := ⟨fun q => if q = 1 then some 0x3007 else none, fun _ => none⟩

theorem onePageCore_word (f i : ℕ) : onePageCore.vm.mm.word f i = onePageWord f i :=
  Mm.word_bytesOf (w := onePageWord) rfl i

theorem onePageCore_hasTable {i : ℕ} (h : onePageCore.vm.mm.HasTable 1 i) : i = 0 := by
  by_contra hi
  have hP := h.1
  rw [onePageCore_word, onePageWord, if_neg fun hc => hi hc.2, if_neg fun hc =>
    absurd hc.1 (by decide)] at hP
  exact absurd hP (by decide)

theorem onePageCore_leaf : onePageCore.vm.mm.leaf 1 1 = some (0x3007, false) := by
  have htable : onePageCore.vm.mm.word 1 (1 / 1024) = tablePde 2 := onePageCore_word 1 0
  rw [Mm.leaf_of_table (by decide) htable, onePageCore_word]
  rfl

theorem onePageCore_ready : TlbReady onePageCore.vm.mm 1 [] where
  unmarked _ _ := (by decide : PageInfo.zero.has poisonAfterFree = false)
  user i hi h := by
    rw [onePageCore_hasTable h, onePageCore_word]
    decide
  apart i _ j _ hi hj _ := by rw [onePageCore_hasTable hi, onePageCore_hasTable hj]
  list := ⟨rfl, fun i hi => (List.not_mem_nil hi).elim, fun _ _ => rfl⟩
  apartList _ _ := List.not_mem_nil

theorem onePageCore_fresh : onePageCore.tlb.Fresh onePageCore.vm.mm 1 := by
  refine ⟨fun q _ e he => ?_, fun i _ e he => nomatch he⟩
  have hq : q = 1 := by
    by_contra hq
    exact nomatch (if_neg hq).symm.trans he
  subst hq
  obtain rfl : 0x3007#32 = e := Option.some.inj he
  exact ⟨_, onePageCore_leaf, by decide, rfl, id, id⟩

theorem onePageCore_low (perm : BitVec 32) : TlbCall.Low onePageCore 0 (.changePerm 0 perm) := by
  have hlen : pageCount 0x1000#32 = 1 := by decide
  have hU : uTop.toNat = 4005560320 := rfl
  change (0x1000#32).toNat + (0 + pageCount 0x1000#32) * 4096 ≤ uTop.toNat
  rw [hlen, hU]
  decide

/-- A call that returns. -/
def TlbCall.returns (c : Core) (e : ℕ) (call : TlbCall) : Bool :=
  match call.run c e with
  | .ok _ => true
  | .error _ => false

theorem TlbCall.returns_iff {c : Core} {e : ℕ} {call : TlbCall} :
    call.returns c e = true ↔ ∃ c', call.run c e = .ok c' := by
  unfold TlbCall.returns
  split
  · rename_i c' hc
    exact ⟨fun _ => ⟨c', hc⟩, fun _ => rfl⟩
  · rename_i a ha
    exact ⟨fun hc => (nomatch hc), fun ⟨c', hc⟩ => nomatch ha.symm.trans hc⟩

theorem onePageCore_returns : TlbCall.returns onePageCore 0 (.changePerm 0 pteU) = true ∧
    TlbCall.returns onePageCore 0 (.changePerm 0 (pteW ||| pteU)) = true := by decide +kernel

theorem tlb_fresh_iff_one :
    ∃ c', TlbCall.run onePageCore 0 (.changePerm 0 (pteW ||| pteU)) = .ok c' ∧
    (TlbCall.Fits onePageCore 0 1 (.changePerm 0 (pteW ||| pteU)) → c'.tlb.Fresh c'.vm.mm 1) ∧
      (TlbCall.SameSize onePageCore 0 1 (.changePerm 0 (pteW ||| pteU)) → c'.tlb.Fresh c'.vm.mm 1 →
        TlbCall.Fits onePageCore 0 1 (.changePerm 0 (pteW ||| pteU))) := by
  obtain ⟨c', hrun⟩ := TlbCall.returns_iff.1 onePageCore_returns.2
  exact ⟨c', hrun, tlb_fresh_iff onePageCore c' 0 1 [] (.changePerm 0 (pteW ||| pteU)) rfl rfl
    onePageCore_ready (onePageCore_low _)
    onePageCore_fresh hrun⟩

/-- **`vma_change_perm` takes the permission to write away**, and the TLB still grants it. -/
theorem stale_write_after_change_perm :
    ¬ ∀ (c c' : Core) (e d : ℕ) (l : List ℕ) (call : TlbCall), c.curenv = some e →
      c.vm.pgdir e = some d →
      TlbReady c.vm.mm d l → call.Low c e → c.tlb.Fresh c.vm.mm d → call.run c e = .ok c' →
      c'.tlb.Fresh c'.vm.mm d := by
  intro hall
  obtain ⟨c', hrun⟩ := TlbCall.returns_iff.1 onePageCore_returns.1
  have hwalked : onePageCore.vm.mm.walked 1 (pageCount (onePageCore.vm.vma 0 0).len)
      (vpn (onePageCore.vm.vma 0 0).va) = [1] := by
    have hlen : pageCount (onePageCore.vm.vma 0 0).len = 1 := (by decide : pageCount 0x1000#32 = 1)
    have hvpn : vpn (onePageCore.vm.vma 0 0).va = 1 := (by decide : vpn 0x1000#32 = 1)
    rw [hlen, hvpn, Mm.walked, onePageCore_leaf]
    rfl
  have hsize : TlbCall.SameSize onePageCore 0 1 (.changePerm 0 pteU) := by
    rw [TlbCall.SameSize, hwalked]
    intro q hq
    rw [List.mem_singleton.1 hq, onePageCore_word]
    decide
  have hlow := onePageCore_low pteU
  have hfresh := hall onePageCore c' 0 1 [] (.changePerm 0 pteU) rfl rfl onePageCore_ready hlow
    onePageCore_fresh hrun
  have hfits := ((vmaChangePermOn_fresh_iff onePageCore_ready.toTlbTables rfl rfl hlow hsize
    onePageCore_fresh).of_ok hrun).1
    hfresh
  rw [hwalked] at hfits
  have hcov := hfits.small 1 (List.mem_singleton.2 rfl) 1 (by decide) 0x3007 rfl rfl
  have hpte : onePageCore.vm.pte (onePageCore.vm.mm.leafPtr 1 1) = 0x3007 :=
    (Mm.leaf_eq_some onePageCore_leaf).2.2.symm
  rw [hpte] at hcov
  exact absurd (hcov.2.1 (by decide)) (by decide)

end Jos
