/-
**Fork.**

`env_dup` gives the child the areas of the parent and, page by page, the entries of the parent's
page tables, after it has taken the permission to write from both. An entry that is 0 is copied as
well, and counted as a reference of frame 0, which belongs to the kernel.

Main definitions:

* `Jos.cowPte` — an entry without the permission to write;
* `Jos.Copied` — the entries of some pages have been copied to the child.

Main results:

* `Jos.VmInv.cpyPgdir` — `env_cpy_pgdir_cow`;
* `Jos.VmInv.dup` — `env_dup`.
-/

import JosKernel.SpaceLife
import JosKernel.Walks

set_option relaxedAutoImplicit false
set_option autoImplicit false

namespace Jos

open LinkedList Outcome

/-! ### One entry -/

theorem cleanWrite_of_maps {va w : BitVec 32} {pp : ℕ} (hw : Maps w pp) (hclean : CleanPte w) :
    CleanWrite ⟨va, pp, w⟩ := by
  refine ⟨?_, hclean⟩
  have hpp : pp < 2 ^ 20 := hw.2 ▸ pgnum_lt w
  exact (pteAddr_eq_page2pa_iff hpp).2 hw.2

/-- **One entry has got a new value**, in a page table that exists. -/
structure EntrySet (s s' : Vm) (D K : Finset ℕ) (l : List ℕ) (d : ℕ) (va w : BitVec 32) : Prop where
  inv : VmInv s' D K l
  npages : s'.mm.npages = s.mm.npages
  rewrites : Rewrites s.mm s'.mm D d (vpn va) w
  tables : ∀ d i t, s'.mm.Table D d i t ↔ s.mm.Table D d i t
  pages : ∀ f, s.mm.Held f → s.mm.Plain D K f → s'.mm.Held f ∧ s'.mm.Plain D K f ∧
    s'.mm.mem f = s.mm.mem f
  space : SameSpaces s s'

namespace VmInv

variable {s s' : Vm} {D K : Finset ℕ} {l : List ℕ} {d t pp : ℕ} {va w : BitVec 32}

/-- An entry gets a value that maps `pp`, and the count of `pp` becomes `n`. -/
theorem setEntry (h : VmInv s D K l) (ht : s.mm.Table D d (pdx va) t) (hheld : s.mm.Held pp)
    (hplain : s.mm.Plain D K pp) (hw : Maps w pp) (hclean : CleanPte w) {n : BitVec 16}
    (hold : ∀ g ≠ pp, ¬ Maps (s.mm.word t (ptx va)) g)
    (hn : n + (if Maps (s.mm.word t (ptx va)) pp then 1 else 0) = s.ref pp + 1)
    (honly : OnlyAt s.mm D pp (vpn va))
    (hs' : s' = (s.setRef pp n).writePte ⟨t, ptx va⟩ va pp w) : EntrySet s s' D K l d va w := by
  subst hs'
  obtain ⟨hpt, hrw⟩ := setEntry_inv h.pt ht hheld hplain hw hold hn
  obtain ⟨hrefs, hmem⟩ := setEntry_keeps ht hplain n w
  have htD : t ∉ D := (h.pt.table _ _ _ ht).2.1
  have hdir : ∀ d ∈ D, ∀ i, ((s.setRef pp n).writePte ⟨t, ptx va⟩ va pp w).mm.word d i =
      s.mm.word d i := by
    intro d' hd' i
    refine (Vm.word_writePte ..).trans (if_neg ?_)
    rintro ⟨rfl, -⟩
    exact htD hd'
  refine ⟨?_, rfl, hrw, fun _ _ _ => PtInv.table_congr hdir, fun f hf hp => ⟨?_, ?_, hmem f hp⟩,
    ⟨rfl, rfl, rfl, rfl⟩⟩
  · refine h.ofWrite hpt rfl (fun d' hd' q hq => hrw d' hd' q (PtInv.lt_pow_of_low hq)) hclean ?_
      (.cons rfl (cleanWrite_of_maps hw hclean)) (fun d' hd' => hrefs d' (Or.inl hd'))
        ⟨rfl, rfl, rfl, rfl⟩
    intro d' hd' q hq f hf hm
    obtain rfl : pp = f := hw.2.symm.trans hf.2
    exact honly d' hd' q hq hm
  · exact hf.congr rfl (Vm.flags_setRef ..)
  · exact (PtInv.plain_congr hdir).2 hp

/-- An entry that is 0 is written as 0. -/
theorem setZero (h : VmInv s D K l) (ht : s.mm.Table D d (pdx va) t) (hz : s.mm.word t (ptx va) = 0)
    (hs' : s' = s.writePte ⟨t, ptx va⟩ va 0 0) : EntrySet s s' D K l d va 0 := by
  subst hs'
  have hword : ∀ g k, (s.writePte ⟨t, ptx va⟩ va 0 0).mm.word g k = s.mm.word g k := by
    intro g k
    refine (Vm.word_writePte ..).trans ?_
    split
    · rename_i heq
      obtain ⟨rfl, rfl⟩ := heq
      exact hz.symm
    · rfl
  have hentry : ∀ d' q, (s.writePte ⟨t, ptx va⟩ va 0 0).mm.entry d' q = s.mm.entry d' q := by
    intro d' q
    simp only [Mm.entry, hword]
  have hzero : pteAddr 0 = page2pa 0 := by decide
  refine ⟨?_, rfl, fun d' hd' q hq => ?_, fun _ _ _ => PtInv.table_congr fun _ _ _ => hword _ _,
    fun f hf hp => ⟨hf.congr rfl rfl, (PtInv.plain_congr fun _ _ _ => hword _ _).2 hp, ?_⟩,
    ⟨rfl, rfl, rfl, rfl⟩⟩
  · refine h.ofSame (h.pt.same (fun g _ k => hword g k) rfl (h.pt.free.setWord ..) h.pt.kept
      (fun g hg => hg.congr rfl rfl) fun _ _ => rfl) rfl (fun d' _ q _ => hentry d' q) (.cons rfl
        ⟨hzero, cleanPte_zero⟩)
      (fun _ _ => rfl) ⟨rfl, rfl, rfl, rfl⟩
  · rw [hentry]
    split
    · rename_i heq
      obtain ⟨rfl, rfl⟩ := heq
      rw [ht.entry h.pt, hz]
    · rfl
  · refine Function.update_of_ne ?_ ..
    rintro rfl
    exact hp.2.2 _ _ ht

end VmInv

/-! ### The copy of one page -/

/-- `*pte & ~PTE_W`. -/
def cowPte (w : BitVec 32) : BitVec 32 := w &&& ~~~pteW

theorem cowPte_and {w m : BitVec 32} (hm : m &&& pteW = 0) : cowPte w &&& m = w &&& m := by
  have hkeep : ~~~pteW &&& m = m := by
    ext k hk
    have hbit := congrArg (fun x => BitVec.getLsbD x k) hm
    simp only [BitVec.getLsbD_and] at hbit
    rw [BitVec.getElem_and, BitVec.getElem_not, ← BitVec.getLsbD_eq_getElem
      hk, ← BitVec.getLsbD_eq_getElem hk]
    cases hmk : m.getLsbD k with
    | false => simp
    | true =>
        rw [hmk, Bool.true_and] at hbit
        rw [hbit]
        simp
  rw [cowPte, BitVec.and_assoc, hkeep]

theorem pgnum_cowPte (w : BitVec 32) : pgnum (cowPte w) = pgnum w := by
  rw [← pgnum_pteAddr, pteAddr, cowPte_and (by decide), ← pteAddr, pgnum_pteAddr]

theorem isPresent_cowPte (w : BitVec 32) : isPresent (cowPte w) = isPresent w := by
  rw [isPresent, cowPte_and (by decide), isPresent]

theorem isWritable_cowPte (w : BitVec 32) : isWritable (cowPte w) = false := by
  rw [isWritable, cowPte, BitVec.and_assoc]
  have hz : ~~~pteW &&& pteW = 0 := by decide
  rw [hz]
  simp

theorem maps_cowPte {w : BitVec 32} {f : ℕ} : Maps (cowPte w) f ↔ Maps w f := by
  rw [Maps, Maps, isPresent_cowPte, pgnum_cowPte]

theorem CleanPte.cowPte {w : BitVec 32} (h : CleanPte w) : CleanPte (cowPte w) := by
  unfold CleanPte Jos.cowPte at *
  rw [BitVec.and_assoc w, BitVec.and_comm (~~~pteW), ← BitVec.and_assoc w,
    BitVec.and_assoc _ (~~~pteW),
    BitVec.and_comm (~~~pteW), ← BitVec.and_assoc, h]
  exact BitVec.zero_and

theorem cowPte_of_not_writable {w : BitVec 32} (h : isWritable w = false) : cowPte w = w := by
  ext k hk
  rw [cowPte, BitVec.getElem_and, BitVec.getElem_not]
  by_cases hk1 : k = 1
  · subst hk1
    have hbit :=
      congrArg (fun x => BitVec.getLsbD x 1) (by simpa [isWritable] using h : w &&& pteW = 0)
    simp only [BitVec.getLsbD_and] at hbit
    have hW : pteW.getLsbD 1 = true := by decide
    rw [hW, Bool.and_true, BitVec.getLsbD_eq_getElem hk] at hbit
    rw [hbit]
    simp
  · have hW : pteW.getLsbD k = false := by
      rw [pteW, BitVec.getLsbD_ofNat]
      simp only [Bool.and_eq_false_iff]
      right
      have h2 : (2 : ℕ) = 2 ^ 1 := rfl
      rw [h2, Nat.testBit_two_pow]
      simp [Ne.symm hk1]
    rw [BitVec.getLsbD_eq_getElem hk] at hW
    rw [hW]
    simp

@[simp] theorem cowPte_zero : cowPte 0 = 0 := by decide

/-- The entry that fork leaves behind is one without the permission to write. -/
theorem ite_cowPte (w : BitVec 32) : (if isWritable w = true then cowPte w else w) = cowPte w := by
  split
  · rfl
  · rename_i h
    exact (cowPte_of_not_writable (Bool.eq_false_of_not_eq_true h)).symm

/-- **The entries of the pages in `P` have been copied from `dp` to `dc`**, without the permission
to write, and no page has been lost. -/
structure Copied (s s' : Vm) (D K : Finset ℕ) (l' : List ℕ) (dp dc : ℕ) (P : ℕ → Prop) : Prop where
  inv : VmInv s' D K l'
  npages : s'.mm.npages = s.mm.npages
  copied : ∀ d, d = dp ∨ d = dc → ∀ q, q / 1024 < pdx uTop → P q →
    s'.mm.entry d q = cowPte (s.mm.entry dp q)
  others : ∀ d ∈ D, ∀ q, q / 1024 < pdx uTop → ¬ ((d = dp ∨ d = dc) ∧ P q) →
    s'.mm.entry d q = s.mm.entry d q
  pages : ∀ f, s.mm.Held f → s.mm.Plain D K f → s'.mm.Held f ∧ s'.mm.Plain D K f ∧
    s'.mm.mem f = s.mm.mem f
  space : SameSpaces s s'

theorem EntrySet.entry_of_eq {s s' : Vm} {D K : Finset ℕ} {l : List ℕ} {d q : ℕ} {va w : BitVec 32}
    (h : EntrySet s s' D K l d va w) (hd : d ∈ D) (hq : q / 1024 < pdx uTop) (heq : q = vpn va) :
    s'.mm.entry d q = w :=
  (h.rewrites d hd q (PtInv.lt_pow_of_low hq)).trans (if_pos ⟨rfl, heq⟩)

theorem EntrySet.entry_of_ne {s s' : Vm} {D K : Finset ℕ} {l : List ℕ} {d d' q : ℕ}
    {va w : BitVec 32} (h : EntrySet s s' D K l d va w) (hd : d' ∈ D) (hq : q / 1024 < pdx uTop)
    (hne : ¬ (d' = d ∧ q = vpn va)) :
    s'.mm.entry d' q = s.mm.entry d' q :=
  (h.rewrites d' hd q (PtInv.lt_pow_of_low hq)).trans (if_neg hne)

/-- No page table, no entry. -/
theorem pgdirFind_absent {s : Vm} {d : ℕ} {va : BitVec 32}
    (h : isPresent (s.mm.word d (pdx va)) = false) :
    pgdirFind s (some d) va = Except.ok none := by
  have hP : ¬ isPresent (s.pte ⟨d, pdx va⟩) = true := by
    rw [Bool.not_eq_true]
    exact h
  unfold pgdirFind
  dsimp only
  rw [if_neg hP]
  rfl

namespace VmInv

variable {s : Vm} {D K : Finset ℕ} {l : List ℕ} {child parent dp dc : ℕ} {va : BitVec 32}

/-- The end of the copy of one page, once both page tables exist. -/
theorem cpyEntry (h : VmInv s D K l) (hne : dp ≠ dc) {tp tc : ℕ} (htp : s.mm.Table D dp (pdx va) tp)
    (htc : s.mm.Table D dc (pdx va) tc) (hva : va < uTop) (hz : s.mm.entry dc (vpn va) = 0)
    {s₂ s' : Vm} {w : BitVec 32}
    (hw : s.mm.word tp (ptx va) = w)
    (hs₂ : s₂ = if isWritable w then s.writePte ⟨tp, ptx va⟩ va (pgnum w) (cowPte w) else s)
    (hs' : s' = (s₂.writePte ⟨tc, ptx va⟩ va (pgnum (cowPte w)) (cowPte w)).setRef
      (pgnum (cowPte w))
      (s₂.ref (pgnum (cowPte w)) + 1)) :
    Copied s s' D K l dp dc (· = vpn va) := by
  have hlow := low_vpn hva
  have hwp : s.mm.entry dp (vpn va) = w := (htp.entry h.pt).trans hw
  have hwc : s.mm.word tc (ptx va) = 0 := (htc.entry h.pt).symm.trans hz
  rw [pgnum_cowPte] at hs'
  rcases h.pt.pte _ _ _ htp _ (ptx_lt va) with hzero | ⟨hP, hheld, hplain⟩
  · -- nothing is mapped: the reference goes to frame 0
    obtain rfl : w = 0 := hw.symm.trans hzero
    obtain rfl : s₂ = s := hs₂.trans (if_neg (by decide))
    have hset := h.setZero htc hwc rfl
    have hpg : pgnum (0 : BitVec 32) = 0 := by decide
    rw [hpg, cowPte_zero] at hs'
    subst hs'
    have hinv := hset.inv.setRef h.zero (s₂.ref 0 + 1)
    refine ⟨hinv, hset.npages, ?_, ?_, fun f hf hp => ?_, hset.space.trans ⟨rfl, rfl, rfl, rfl⟩⟩
    · intro d hd q hq heq
      rw [heq, hwp, cowPte_zero]
      rcases hd with rfl | rfl
      · refine (hset.entry_of_ne htp.1 hlow fun hc => hne hc.1).trans ?_
        exact hwp
      · exact hset.entry_of_eq htc.1 hlow rfl
    · intro d hd q hq hn
      exact hset.entry_of_ne hd hq fun hc => hn ⟨Or.inr hc.1, hc.2⟩
    · obtain ⟨hh, hpl, hmem⟩ := hset.pages f hf hp
      exact ⟨hh.congr rfl (Vm.flags_setRef ..), hpl, hmem⟩
  · rw [hw] at hP hheld hplain
    have hmap : Maps w (pgnum w) := ⟨hP, rfl⟩
    have hmap' : Maps (cowPte w) (pgnum w) := maps_cowPte.2 hmap
    have hcl : CleanPte (cowPte w) := by
      have hc := h.clean dp htp.1 _ hlow
      rw [hwp] at hc
      exact hc.cowPte
    have honly : OnlyAt s.mm D (pgnum w) (vpn va) := h.onlyAt_of_mapped htp.1 hlow (hwp ▸ hmap)
    have hset : EntrySet s s₂ D K l dp va (cowPte w) := by
      by_cases hW : isWritable w = true
      · refine h.setEntry htp hheld hplain hmap' hcl (n := s.ref (pgnum w)) ?_ ?_ honly ?_
        · intro g hg hm
          rw [hw] at hm
          exact hg hm.2.symm
        · rw [hw, if_pos hmap]
        · rw [hs₂, if_pos hW, Vm.setRef_self]
      · have heq : s₂ = s := hs₂.trans (if_neg hW)
        have hcow := cowPte_of_not_writable (Bool.eq_false_of_not_eq_true hW)
        subst heq
        refine ⟨h, rfl, fun d hd q hq => ?_, fun _ _ _ => Iff.rfl, fun f hf hp => ⟨hf, hp, rfl⟩,
          ⟨rfl, rfl, rfl, rfl⟩⟩
        split
        · rename_i hc
          obtain ⟨rfl, rfl⟩ := hc
          rw [hwp, hcow]
        · rfl
    obtain ⟨hheld₂, hplain₂, -⟩ := hset.pages _ hheld hplain
    have htc₂ : s₂.mm.Table D dc (pdx va) tc := (hset.tables _ _ _).2 htc
    have hzc₂ : s₂.mm.entry dc (vpn va) = 0 :=
      (hset.entry_of_ne htc.1 hlow fun hc => hne hc.1.symm).trans hz
    have hwc₂ : s₂.mm.word tc (ptx va) = 0 := (htc₂.entry hset.inv.pt).symm.trans hzc₂
    have honly₂ : OnlyAt s₂.mm D (pgnum w) (vpn va) := by
      refine hset.inv.onlyAt_of_mapped htp.1 hlow ?_
      rw [hset.entry_of_eq htp.1 hlow rfl]
      exact hmap'
    have hset' : EntrySet s₂ s' D K l dc va (cowPte w) := by
      refine hset.inv.setEntry htc₂ hheld₂ hplain₂ hmap' hcl
        (n := s₂.ref (pgnum w) + 1) ?_ ?_ honly₂ hs'
      · intro g _ hm
        rw [hwc₂] at hm
        exact not_maps_zero g hm
      · rw [hwc₂, if_neg (not_maps_zero _)]
        exact BitVec.add_zero ..
    refine ⟨hset'.inv, hset'.npages.trans hset.npages, ?_, ?_, fun f hf hp => ?_,
      hset.space.trans hset'.space⟩
    · intro d hd q hq heq
      rw [heq, hwp]
      rcases hd with rfl | rfl
      · exact (hset'.entry_of_ne htp.1 hlow fun hc => hne hc.1).trans
          (hset.entry_of_eq htp.1 hlow rfl)
      · exact hset'.entry_of_eq htc.1 hlow rfl
    · intro d hd q hq hn
      exact (hset'.entry_of_ne hd hq fun hc => hn ⟨Or.inr hc.1, hc.2⟩).trans
        (hset.entry_of_ne hd hq fun hc => hn ⟨Or.inl hc.1, hc.2⟩)
    · obtain ⟨hh, hpl, hmem⟩ := hset.pages f hf hp
      obtain ⟨hh', hpl', hmem'⟩ := hset'.pages f hh hpl
      exact ⟨hh', hpl', hmem'.trans hmem⟩

/-- **One page of `env_cpy_pgdir_cow`**, where the child has nothing yet. -/
theorem cpyPage (h : VmInv s D K l) (hp : s.pgdir parent = some dp) (hc : s.pgdir child = some dc)
    (hne : dp ≠ dc) (hva : va < uTop) (hz : s.mm.entry dc (vpn va) = 0) :
    Ends (fun _ => True)
      (fun r => (r = (false, s) ∧ l = []) ∨
        (r.1 = true ∧ ∃ l', Copied s r.2 D K l' dp dc (· = vpn va)))
      (cpyPageCow s child parent va) := by
  have hdp := h.dir parent dp hp
  have hdc := h.dir child dc hc
  have hlow := low_vpn hva
  unfold cpyPageCow
  rw [hp, hc]
  cases hP : isPresent (s.mm.word dp (pdx va)) with
  | false =>
      rw [pgdirFind_absent hP]
      refine Or.inr ⟨rfl, l, h, rfl, ?_, fun _ _ _ _ _ => rfl, fun f hf hpl => ⟨hf, hpl, rfl⟩,
        ⟨rfl, rfl, rfl, rfl⟩⟩
      have hzp : s.mm.entry dp (vpn va) = 0 := by
        refine Mm.entry_of_absent ?_
        rw [← pdx_eq]
        exact hP
      intro d hd q hq heq
      rw [heq, hzp, cowPte_zero]
      rcases hd with rfl | rfl
      · exact hzp
      · exact hz
  | true =>
      obtain ⟨tp, htp⟩ : ∃ tp, s.mm.Table D dp (pdx va) tp := ⟨_, hdp, pdx_lt_of_lt hva, hP, rfl⟩
      rw [pgdirFind_table htp.2.2 (h.pt.small dp hdp _ htp.2.1 hP) (h.pt.table _ _ _ htp).1.1]
      rw [ends_bind, ends_ok]
      dsimp only
      rw [ends_bind]
      refine (h.walked hdc hva).post ?_
      rintro ⟨pteC, s₁⟩ (⟨heq, hl⟩ | ⟨tc, l₁, hr, hinv₁, hwalk⟩)
      · obtain ⟨rfl, rfl⟩ := Prod.mk.injEq .. ▸ heq
        exact Or.inl ⟨rfl, hl⟩
      · obtain rfl : pteC = some ⟨tc, ptx va⟩ := hr
        have hinv₁ : VmInv s₁ D K l₁ := hinv₁
        have hwalk : Walked s s₁ D K l l₁ dc (pdx va) tc := hwalk
        have hsame : ∀ d ∈ D, ∀ q, q / 1024 < pdx uTop → s₁.mm.entry d q = s.mm.entry d q :=
          fun d hd q hq =>
          hwalk.entry d hd q (PtInv.lt_pow_of_low hq) (h.pt.not_window_of_low hd hq)
        have htp₁ := hwalk.tables _ _ _ htp
        have htt : tp ≠ tc := by
          rintro rfl
          exact hne (hinv₁.pt.apart _ _ _ _ _ htp₁ hwalk.table).1
        obtain ⟨w, hw⟩ : ∃ w, s₁.mm.word tp (ptx va) = w := ⟨_, rfl⟩
        obtain ⟨s₂, hs₂⟩ : ∃ s₂, s₂ = if isWritable w then s₁.writePte ⟨tp, ptx va⟩ va (pgnum w)
            (cowPte w) else s₁ :=
          ⟨_, rfl⟩
        have hw₂ : s₂.mm.word tp (ptx va) = cowPte w := by
          rw [hs₂, ← ite_cowPte w]
          split
          · exact (Vm.word_writePte ..).trans (if_pos ⟨rfl, rfl⟩)
          · exact hw
        have hw₃ : (s₂.writePte ⟨tc, ptx va⟩ va (pgnum (cowPte w)) (cowPte w)).mm.word tp
            (ptx va) = cowPte w :=
          (Vm.word_writePte ..).trans ((if_neg fun hc => htt hc.1).trans hw₂)
        have hcop :=
          hinv₁.cpyEntry hne htp₁ hwalk.table hva ((hsame dc hdc _ hlow).trans hz) hw hs₂ rfl
        simp only [Vm.pte, hw]
        rw [← cowPte, ← hs₂, hw₂, hw₃, ends_bind]
        refine (pa2page_ends _ _).post fun pg hpg => ?_
        rw [hpg, pgnum_pteAddr]
        refine Or.inr ⟨rfl, l₁, hcop.inv, hcop.npages.trans hwalk.npages, ?_, ?_, fun f hf hpl =>
          ?_,
          hwalk.space.trans hcop.space⟩
        · intro d hd q hq heq
          exact (hcop.copied d hd q hq heq).trans (congrArg cowPte (hsame dp hdp q hq))
        · intro d hd q hq hn
          exact (hcop.others d hd q hq hn).trans (hsame d hd q hq)
        · obtain ⟨hh, hpl', hmem⟩ := hcop.pages f (hwalk.held f hf) (hwalk.plain f hf hpl)
          exact ⟨hh, hpl', hmem.trans (hwalk.mem f hf hpl)⟩

end VmInv

/-! ### The loops -/

theorem cowPte_cowPte (w : BitVec 32) : cowPte (cowPte w) = cowPte w :=
  cowPte_of_not_writable (isWritable_cowPte w)

namespace Copied

variable {s s' s'' : Vm} {D K : Finset ℕ} {l l' l'' : List ℕ} {dp dc : ℕ} {P Q : ℕ → Prop}

theorem refl (h : VmInv s D K l) : Copied s s D K l dp dc fun _ => False where
  inv := h
  npages := rfl
  copied _ _ _ _ hP := hP.elim
  others _ _ _ _ _ := rfl
  pages _ hf hp := ⟨hf, hp, rfl⟩
  space := ⟨rfl, rfl, rfl, rfl⟩

theorem trans (h : Copied s s' D K l' dp dc P) (h' : Copied s' s'' D K l'' dp dc Q) (hdp : dp ∈ D)
    (hdc : dc ∈ D) {R : ℕ → Prop} (hR : ∀ q, R q ↔ P q ∨ Q q) : Copied s s'' D K l'' dp dc R where
  inv := h'.inv
  npages := h'.npages.trans h.npages
  copied d hd q hq hr := by
    have hmem : d ∈ D := by
      rcases hd with rfl | rfl
      · exact hdp
      · exact hdc
    by_cases hP : P q
    · by_cases hQ : Q q
      · rw [h'.copied d hd q hq hQ, h.copied dp (Or.inl rfl) q hq hP, cowPte_cowPte]
      · rw [h'.others d hmem q hq fun hc => hQ hc.2, h.copied d hd q hq hP]
    · have hQ : Q q := ((hR q).1 hr).resolve_left hP
      rw [h'.copied d hd q hq hQ, h.others dp hdp q hq fun hc => hP hc.2]
  others d hd q hq hn := by
    rw [h'.others d hd q hq fun hc => hn ⟨hc.1, (hR q).2 (Or.inr hc.2)⟩,
      h.others d hd q hq fun hc => hn ⟨hc.1, (hR q).2 (Or.inl hc.2)⟩]
  pages f hf hp := by
    obtain ⟨hh, hpl, hmem⟩ := h.pages f hf hp
    obtain ⟨hh', hpl', hmem'⟩ := h'.pages f hh hpl
    exact ⟨hh', hpl', hmem'.trans hmem⟩
  space := h.space.trans h'.space

theorem congr (h : Copied s s' D K l' dp dc P) (hPQ : ∀ q, P q ↔ Q q) :
    Copied s s' D K l' dp dc Q := by
  have heq : P = Q := funext fun q => propext (hPQ q)
  exact heq ▸ h

end Copied

/-- How `env_cpy_pgdir_cow` can end: with the pages in `P` copied, or before that for lack of
frames. -/
def CopyEnd (s : Vm) (D K : Finset ℕ) (dp dc : ℕ) (P : ℕ → Prop) (r : Bool × Vm) : Prop :=
  (r.1 = true ∧ ∃ l', Copied s r.2 D K l' dp dc P) ∨
    (r.1 = false ∧ ∃ l', VmInv r.2 D K l' ∧ SameSpaces s r.2)

theorem CopyEnd.after {s s' : Vm} {D K : Finset ℕ} {l' : List ℕ} {dp dc : ℕ} {P Q R : ℕ → Prop}
    {r : Bool × Vm} (h : Copied s s' D K l' dp dc P) (h' : CopyEnd s' D K dp dc Q r) (hdp : dp ∈ D)
    (hdc : dc ∈ D) (hR : ∀ q, R q ↔ P q ∨ Q q) : CopyEnd s D K dp dc R r := by
  rcases h' with ⟨hr, l'', hc⟩ | ⟨hr, l'', hinv, hsp⟩
  · exact Or.inl ⟨hr, l'', h.trans hc hdp hdc hR⟩
  · exact Or.inr ⟨hr, l'', hinv, h.space.trans hsp⟩

/-- The next page. -/
theorem next_page {va stop : BitVec 32} (hva : va.toNat % 4096 = 0) (hstop : stop.toNat % 4096 = 0)
    (hlt : va < stop) :
    (va + BitVec.ofNat 32 pgSize).toNat = va.toNat + 4096 ∧ va.toNat + 4096 ≤ stop.toNat := by
  have hb := stop.isLt
  rw [BitVec.lt_def] at hlt
  have hle : va.toNat + 4096 ≤ stop.toNat := by omega
  refine ⟨?_, hle⟩
  have h4096 : (BitVec.ofNat 32 pgSize).toNat = 4096 := rfl
  rw [BitVec.toNat_add, h4096]
  omega

theorem vpn_next_page {va stop : BitVec 32} (hva : va.toNat % 4096 = 0)
    (hstop : stop.toNat % 4096 = 0) (hlt : va < stop) :
    vpn va < vpn stop ∧ vpn (va + BitVec.ofNat 32 pgSize) = vpn va + 1 := by
  obtain ⟨hnext, hle⟩ := next_page hva hstop hlt
  rw [vpn, vpn, vpn, hnext]
  omega

namespace VmInv

variable {s : Vm} {D K : Finset ℕ} {l : List ℕ} {child parent dp dc : ℕ}

/-- **The inner loop of `env_cpy_pgdir_cow`**, over the pages of one area. -/
theorem cpyPages (hne : dp ≠ dc) {stop : BitVec 32} (hstop : stop.toNat % 4096 = 0)
    (hU : stop.toNat ≤ uTop.toNat) :
    ∀ (fuel : ℕ) (va : BitVec 32) (s : Vm) (l : List ℕ), VmInv s D K l → s.pgdir parent = some dp →
      s.pgdir child = some dc → va.toNat % 4096 = 0 →
      (∀ q, vpn va ≤ q → q < vpn stop → s.mm.entry dc q = 0) →
      Ends (fun _ => True) (CopyEnd s D K dp dc fun q => vpn va ≤ q ∧ q < vpn stop)
        (cpyPagesCow child parent stop fuel va s) := by
  have hdone : ∀ (va : BitVec 32) (s : Vm) (l : List ℕ), VmInv s D K l → ¬ va < stop →
      va.toNat % 4096 = 0 →
      CopyEnd s D K dp dc (fun q => vpn va ≤ q ∧ q < vpn stop) (true, s) := by
    intro va s l h hge hva
    refine Or.inl ⟨rfl, l, (Copied.refl h).congr fun q => ?_⟩
    rw [BitVec.lt_def, not_lt] at hge
    have hle : vpn stop ≤ vpn va := Nat.div_le_div_right hge
    constructor
    · exact False.elim
    · rintro ⟨h₁, h₂⟩
      omega
  intro fuel
  induction fuel with
  | zero =>
      intro va s l h hp hc hva hz
      rw [cpyPagesCow]
      exact ends_ite (fun _ => True.intro) fun hge => hdone va s l h hge hva
  | succ fuel ih =>
      intro va s l h hp hc hva hz
      rw [cpyPagesCow]
      refine ends_ite (fun hlt => ?_) fun hge => hdone va s l h hge hva
      obtain ⟨hnext, hle⟩ := next_page hva hstop hlt
      have hlt' : va < uTop := by
        rw [BitVec.lt_def] at hlt ⊢
        omega
      obtain ⟨hvlt, hvnext⟩ := vpn_next_page hva hstop hlt
      rw [ends_bind]
      refine (h.cpyPage hp hc hne hlt' (hz _ le_rfl hvlt)).post ?_
      rintro ⟨ok, s₁⟩ (⟨heq, -⟩ | ⟨hr, l₁, hcop⟩)
      · obtain ⟨rfl, rfl⟩ := Prod.mk.injEq .. ▸ heq
        exact Or.inr ⟨rfl, l, h, ⟨rfl, rfl, rfl, rfl⟩⟩
      · obtain rfl : ok = true := hr
        have hcop : Copied s s₁ D K l₁ dp dc (· = vpn va) := hcop
        have hdp := h.dir parent dp hp
        have hdc := h.dir child dc hc
        have hp₁ : s₁.pgdir parent = some dp := by
          rw [Vm.pgdir, hcop.space.envs]
          exact hp
        have hc₁ : s₁.pgdir child = some dc := by
          rw [Vm.pgdir, hcop.space.envs]
          exact hc
        have hz₁ : ∀ q, vpn (va + BitVec.ofNat 32 pgSize) ≤ q → q < vpn stop →
            s₁.mm.entry dc q = 0 := by
          intro q hq₁ hq₂
          rw [hvnext] at hq₁
          have hqU : q / 1024 < pdx uTop := by
            have hs : vpn stop ≤ 955 * 1024 := by
              have hU' : uTop.toNat = 4005560320 := rfl
              have h₂ : vpn stop = stop.toNat / 4096 := rfl
              omega
            rw [pdx_uTop]
            omega
          rw [hcop.others dc hdc q hqU fun hc => by have := hc.2; omega]
          exact hz q (by omega) hq₂
        refine (ih (va + BitVec.ofNat 32 pgSize) s₁ l₁ hcop.inv hp₁ hc₁ (by omega) hz₁).post
          fun r hr => ?_
        refine CopyEnd.after hcop hr hdp hdc fun q => ?_
        rw [hvnext]
        omega

end VmInv

/-- The page lies in the area. -/
def Vma.HasPage (v : Vma) (q : ℕ) : Prop := vpn v.va ≤ q ∧ q < vpn (v.va + v.len)

/-- The pages of the area are copied by fork. -/
def Vma.Forked (v : Vma) : Prop := v.type = .anon ∨ v.type = .binary

instance (v : Vma) : Decidable v.Forked := instDecidableOr

theorem AreaOk.end_toNat {v : Vma} (h : AreaOk v) :
    (v.va + v.len).toNat = v.va.toNat + v.len.toNat := by
  have hlow := h.low
  have hU : uTop.toNat = 4005560320 := rfl
  rw [BitVec.toNat_add]
  omega

theorem AreaOk.hasPage_iff {v : Vma} (h : AreaOk v) {q : ℕ} :
    v.HasPage q ↔ v.va.toNat ≤ q * 4096 ∧ q * 4096 < v.va.toNat + v.len.toNat := by
  have hp := h.page
  rw [Vma.HasPage, vpn, vpn, h.end_toNat]
  omega

theorem AreaOk.page_low {v : Vma} (h : AreaOk v) {q : ℕ} (hq : v.HasPage q) :
    q / 1024 < pdx uTop := by
  have hlow := h.low
  have hU : uTop.toNat = 4005560320 := rfl
  have hq' := h.hasPage_iff.1 hq
  rw [pdx_uTop]
  omega

/-- Areas without a common address have no common page. -/
theorem Vma.Apart.not_hasPage {v w : Vma} (h : v.Apart w) (hv : AreaOk v) (hw : AreaOk w) {q : ℕ}
    (hq : v.HasPage q) : ¬ w.HasPage q := by
  rw [hw.hasPage_iff]
  have hq' := hv.hasPage_iff.1 hq
  rcases h with h | h
  · omega
  · omega

namespace VmInv

variable {s : Vm} {D K : Finset ℕ} {l : List ℕ} {child parent dp dc : ℕ}

/-- **The outer loop of `env_cpy_pgdir_cow`**, over the areas of `rest`. -/
theorem cpyAreas (hne : dp ≠ dc) :
    ∀ (fuel : ℕ) (rest : List ℕ) (cur : Option ℕ) (s : Vm) (l : List ℕ),
    VmInv s D K l → s.pgdir parent = some dp → s.pgdir child = some dc →
    Chain (s.envs parent).link cur rest → (∀ i, AreaOk (s.vma parent i)) →
    rest.Pairwise (fun i j => (s.vma parent i).Apart (s.vma parent j)) →
    (∀ i ∈ rest, ∀ q, (s.vma parent i).HasPage q → s.mm.entry dc q = 0) →
    Ends (fun _ => True)
      (CopyEnd s D K dp dc fun q => ∃ i ∈ rest, (s.vma parent i).Forked ∧
        (s.vma parent i).HasPage q)
      (cpyPgdirFrom child parent fuel cur s) := by
  have hdone : ∀ (s : Vm) (l : List ℕ), VmInv s D K l →
      CopyEnd s D K dp dc (fun q => ∃ i ∈ ([] : List ℕ), (s.vma parent i).Forked ∧
        (s.vma parent i).HasPage q)
        (true, s) := fun s l h => Or.inl ⟨rfl, l, (Copied.refl h).congr fun q => by simp⟩
  intro fuel
  induction fuel with
  | zero =>
      intro rest cur s l h hp hc hchain hok hapart hz
      cases cur with
      | none =>
          rw [chain_none] at hchain
          subst hchain
          exact hdone s l h
      | some v => exact True.intro
  | succ fuel ih =>
      intro rest cur s l h hp hc hchain hok hapart hz
      cases cur with
      | none =>
          rw [chain_none] at hchain
          subst hchain
          exact hdone s l h
      | some v =>
          obtain ⟨rest, rfl, htail⟩ := chain_some.1 hchain
          obtain ⟨hfirst, hapart⟩ := List.pairwise_cons.1 hapart
          have hdp := h.dir parent dp hp
          have hdc := h.dir child dc hc
          have hokv := hok v
          have hbody : Ends (fun _ => True)
              (CopyEnd s D K dp dc fun q => (s.vma parent v).Forked ∧ (s.vma parent v).HasPage q)
              (if (s.vma parent v).type = .anon ∨ (s.vma parent v).type = .binary then
                cpyPagesCow child parent ((s.vma parent v).va + (s.vma parent v).len) nPages
                  (s.vma parent v).va s
              else pure (true, s)) := by
            refine ends_ite (fun hf => ?_) fun hf => ?_
            · have hend := hokv.end_toNat
              have hpage := hokv.page
              have hlow := hokv.low
              refine (cpyPages hne (by omega) (by omega) nPages _ s l h hp hc hpage.1 ?_).post
                fun r hr => ?_
              · exact fun q h₁ h₂ => hz v (by simp) q ⟨h₁, h₂⟩
              · rcases hr with ⟨hr, l', hcop⟩ | hr
                · refine Or.inl ⟨hr, l', hcop.congr fun q => ?_⟩
                  exact ⟨fun hq => ⟨hf, hq⟩, fun hq => hq.2⟩
                · exact Or.inr hr
            · refine Or.inl ⟨rfl, l, (Copied.refl h).congr fun q => ?_⟩
              exact ⟨False.elim, fun hq => hf hq.1⟩
          rw [cpyPgdirFrom]
          refine Ends.ite_bind (hbody.post ?_)
          rintro ⟨ok, s₁⟩ (⟨hr, l₁, hcop⟩ | ⟨hr, l₁, hinv, hsp⟩)
          · obtain rfl : ok = true := hr
            have hcop : Copied s s₁ D K l₁ dp dc _ := hcop
            have hvma : ∀ i, s₁.vma parent i = s.vma parent i := by
              intro i
              rw [Vm.vma, hcop.space.envs]
              rfl
            have hp₁ : s₁.pgdir parent = some dp := by
              rw [Vm.pgdir, hcop.space.envs]
              exact hp
            have hc₁ : s₁.pgdir child = some dc := by
              rw [Vm.pgdir, hcop.space.envs]
              exact hc
            have hz₁ : ∀ i ∈ rest, ∀ q, (s₁.vma parent i).HasPage q → s₁.mm.entry dc q = 0 := by
              intro i hi q hq
              rw [hvma] at hq
              rw [hcop.others dc hdc q ((hok i).page_low hq)]
              · exact hz i (List.mem_cons_of_mem v hi) q hq
              · rintro ⟨-, -, hqv⟩
                exact (hfirst i hi).not_hasPage hokv (hok i) hqv hq
            have hchain₁ : Chain (s₁.envs parent).link ((s₁.vma parent v).vmaLink) rest := by
              rw [hvma, hcop.space.envs]
              exact htail
            have hapart₁ : rest.Pairwise fun i j => (s₁.vma parent i).Apart (s₁.vma parent j) := by
              simp only [hvma]
              exact hapart
            refine (ih rest _ s₁ l₁ hcop.inv hp₁ hc₁ hchain₁ (fun i => (hvma i).symm ▸ hok i)
              hapart₁ hz₁).post ?_
            intro r hr
            refine CopyEnd.after hcop hr hdp hdc fun q => ?_
            simp only [hvma, List.mem_cons, exists_eq_or_imp]
          · obtain rfl : ok = false := hr
            exact Or.inr ⟨rfl, l₁, hinv, hsp⟩

/-- **`env_cpy_pgdir_cow`**, when the child has no pages in the areas of the parent. -/
theorem cpyPgdir (h : VmInv s D K l) (hp : s.pgdir parent = some dp) (hc : s.pgdir child = some dc)
    (hne : dp ≠ dc) {la lf : List ℕ} (har : Areas (s.envs parent) la lf)
    (hz : ∀ i ∈ la, ∀ q, (s.vma parent i).HasPage q → s.mm.entry dc q = 0) :
    Ends (fun _ => True)
      (CopyEnd s D K dp dc fun q => ∃ i ∈ la, (s.vma parent i).Forked ∧ (s.vma parent i).HasPage q)
      (envCpyPgdirCow s child parent) :=
  cpyAreas hne nVma la _ s l h hp hc har.lists.alloc har.ok har.apart hz

end VmInv

/-! ### The areas of the child -/

/-- The state is the same but for the areas of one environment. -/
structure OnlyAreas (s s' : Vm) (e : ℕ) : Prop where
  mm : s'.mm = s.mm
  written : s'.written = s.written
  kernPgdir : s'.kernPgdir = s.kernPgdir
  image : s'.image = s.image
  envFrame : s'.envFrame = s.envFrame
  others : ∀ e' ≠ e, s'.envs e' = s.envs e'
  pgdir : s'.pgdir e = s.pgdir e

theorem OnlyAreas.trans {s s' s'' : Vm} {e : ℕ} (h : OnlyAreas s s' e) (h' : OnlyAreas s' s'' e) :
    OnlyAreas s s'' e :=
  ⟨h'.mm.trans h.mm, h'.written.trans h.written, h'.kernPgdir.trans h.kernPgdir,
    h'.image.trans h.image,
    h'.envFrame.trans h.envFrame, fun e' he => (h'.others e' he).trans (h.others e' he),
    h'.pgdir.trans h.pgdir⟩

theorem OnlyAreas.modSpace (s : Vm) (e : ℕ) {f : Space → Space}
    (hf : (f (s.envs e)).pgdir = (s.envs e).pgdir) :
    OnlyAreas s (s.modSpace e f) e where
  mm := rfl
  written := rfl
  kernPgdir := rfl
  image := rfl
  envFrame := rfl
  others _ he := Vm.modSpace_of_ne s f he
  pgdir := by
    rw [Vm.pgdir, Vm.modSpace_self]
    exact hf

/-- The area `b` is in use, among those of `la`. -/
def Space.Uses (sp : Space) (la : List ℕ) (b : Vma) : Prop := ∃ i ∈ la, (sp.vmas i).body = b

theorem Areas.Added.uses_iff {sp sp' : Space} {la la' lf' : List ℕ} {new : ℕ} {v : Vma}
    (h : Areas.Added sp sp' la la' lf' new v) (b : Vma) :
    sp'.Uses la' b ↔ v = b ∨ sp.Uses la b := by
  have hne : ∀ i ∈ la, i ≠ new := by
    rintro i hi rfl
    exact h.fresh hi
  constructor
  · rintro ⟨i, hi, hb⟩
    rcases List.mem_cons.1 (h.list.mem_iff.1 hi) with rfl | hi
    · exact Or.inl (h.body.symm.trans hb)
    · exact Or.inr ⟨i, hi, (h.others i (hne i hi)).symm.trans hb⟩
  · rintro (rfl | ⟨i, hi, hb⟩)
    · exact ⟨new, h.list.mem_iff.2 (by simp), h.body⟩
    · exact ⟨i, h.list.mem_iff.2 (by simp [hi]), (h.others i (hne i hi)).trans hb⟩

namespace VmInv

variable {s : Vm} {D K : Finset ℕ} {l : List ℕ} {child parent : ℕ}

/-- **The loop of `env_cpy_vmas`**, over the areas of `rest`. -/
theorem cpyVmas_loop (hne : parent ≠ child) :
    ∀ (fuel : ℕ) (rest : List ℕ) (cur n : Option ℕ) (s : Vm)
    (lc lf : List ℕ), VmInv s D K l → s.pgdir child ≠ none → Chain (s.envs parent).link cur rest →
    (∀ i, AreaOk (s.vma parent i)) → rest.Pairwise
    (fun i j => (s.vma parent i).Apart (s.vma parent j)) →
    Areas (s.envs child) lc lf → (∀ j ∈ rest, ∀ i ∈ lc, (s.vma parent j).Apart (s.vma child i)) →
    Ends (fun _ => True)
      (fun r => r.1 = true ∧ OnlyAreas s r.2 child ∧ VmInv r.2 D K l ∧ ∃ lc' lf',
        Areas (r.2.envs child) lc' lf' ∧
        ∀ b, (r.2.envs child).Uses lc' b ↔ (s.envs parent).Uses rest b ∨ (s.envs child).Uses lc b)
      (cpyVmasFrom child parent fuel cur n s) := by
  have hdone : ∀ (s : Vm) (lc lf : List ℕ), VmInv s D K l → Areas (s.envs child) lc lf →
      (true, s).1 = true ∧ OnlyAreas s s child ∧ VmInv s D K l ∧ ∃ lc' lf',
        Areas (s.envs child) lc' lf' ∧
        ∀ b, (s.envs child).Uses lc' b ↔ (s.envs parent).Uses [] b ∨ (s.envs child).Uses lc b :=
    fun s lc lf h har => ⟨rfl, ⟨rfl, rfl, rfl, rfl, rfl, fun _ _ => rfl, rfl⟩, h, lc, lf, har,
      fun b => by simp [Space.Uses]⟩
  intro fuel
  induction fuel with
  | zero =>
      intro rest cur n s lc lf h hpg hchain hok hapart har hnew
      cases cur with
      | none =>
          rw [chain_none] at hchain
          subst hchain
          rw [cpyVmasFrom]
          exact hdone s lc lf h har
      | some v => exact True.intro
  | succ fuel ih =>
      intro rest cur n s lc lf h hpg hchain hok hapart har hnew
      cases cur with
      | none =>
          rw [chain_none] at hchain
          subst hchain
          rw [cpyVmasFrom]
          exact hdone s lc lf h har
      | some v =>
          obtain ⟨rest, rfl, htail⟩ := chain_some.1 hchain
          obtain ⟨hfirst, hapart⟩ := List.pairwise_cons.1 hapart
          have hokv := hok v
          have heq := hokv.newVma_eq
          rw [cpyVmasFrom, Vm.onSpace]
          simp only [ends_bind, bind_assoc]
          refine (har.vmaNew (heq.symm ▸ areaOk_body.2 hokv) ?_).post ?_
          · intro i hi
            rw [heq]
            exact (hnew v (by simp) i hi).congr rfl rfl
          rintro ⟨r, sp⟩ ⟨new, lc₁, lf₁, hr, hadd⟩
          obtain rfl : r = .made new := hr
          have hadd : Areas.Added (s.envs child) sp lc lc₁ lf₁ new (s.vma parent v).body := by
            rw [← heq]
            exact hadd
          obtain ⟨s₁, hs₁⟩ : ∃ s₁, s₁ = s.modSpace child fun _ => sp := ⟨_, rfl⟩
          have henv : s₁.envs child = sp := by
            rw [hs₁, Vm.modSpace_self]
          have honly : OnlyAreas s s₁ child := by
            rw [hs₁]
            exact OnlyAreas.modSpace s child hadd.pgdir
          have hpar : s₁.envs parent = s.envs parent := honly.others parent hne
          have hvma : ∀ i, s₁.vma parent i = s.vma parent i :=
            fun i => congrArg (fun sp => Space.vmas sp i) hpar
          have hinv : VmInv s₁ D K l := by
            rw [hs₁]
            exact h.modSpace child hadd.pgdir ⟨lc₁, lf₁, hadd.areas⟩ fun hnone => absurd hnone hpg
          have hhps : (sp.vmas new).hps = false := (hadd.areas.ok new).small
          have hid : (s₁.modSpace child fun sp => sp.modVma new fun w =>
              { w with hps := (s.vma parent v).hps }) = s₁ := by
            refine Vm.modSpace_eq_self ?_
            rw [henv, hokv.small]
            exact Space.modVma_eq_self (by rw [← hhps])
          simp only [ends_pure, ← hs₁, hid]
          refine (ih rest _ _ s₁ lc₁ lf₁ hinv ?_ ?_ ?_ ?_ ?_ ?_).post ?_
          · rw [honly.pgdir]
            exact hpg
          · rw [hvma, hpar]
            exact htail
          · intro i
            rw [hvma]
            exact hok i
          · simp only [hvma]
            exact hapart
          · rw [henv]
            exact hadd.areas
          · intro j hj i hi
            have hbody : (s₁.vma child i).body = (sp.vmas i).body := by
              rw [Vm.vma, henv]
            rw [hvma]
            rcases List.mem_cons.1 (hadd.list.mem_iff.1 hi) with rfl | hi
            · exact (hfirst j hj).symm.congr rfl (hbody.trans hadd.body)
            · have hni : i ≠ new := by
                rintro rfl
                exact hadd.fresh hi
              exact (hnew j (by simp [hj]) i hi).congr rfl (hbody.trans (hadd.others i hni))
          · rintro r ⟨hr, honly', hinv', lc', lf', har', huses⟩
            refine ⟨hr, honly.trans honly', hinv', lc', lf', har', fun b => ?_⟩
            rw [huses, hpar, henv, hadd.uses_iff]
            have hcons : (s.envs parent).Uses (v :: rest) b ↔ (s.vma parent v).body = b ∨
                (s.envs parent).Uses rest b := by
              simp [Space.Uses, Vm.vma]
            rw [hcons, or_left_comm, or_assoc]

/-- **What `env_dup` leaves behind when it succeeds**: the child has the directory `dc`, the areas
of the parent, and the parent's entries in all of their pages. -/
structure Duplicated (s s' : Vm) (D K : Finset ℕ) (l' : List ℕ) (parent child dp dc : ℕ)
    (la : List ℕ) : Prop where
  inv : VmInv s' (insert dc D) K l'
  npages : s'.mm.npages = s.mm.npages
  fresh : dc ∉ D
  pgdir : s'.pgdir child = some dc
  others : ∀ e ≠ child, s'.envs e = s.envs e
  areas : ∃ lc lf, Areas (s'.envs child) lc lf ∧ ∀ b, (s'.envs child).Uses lc b ↔
    (s.envs parent).Uses la b
  copied : ∀ d, d = dp ∨ d = dc →
    ∀ q, (∃ i ∈ la, (s.vma parent i).Forked ∧ (s.vma parent i).HasPage q) →
    s'.mm.entry d q = cowPte (s.mm.entry dp q)
  absent : ∀ q, q / 1024 < pdx uTop →
    ¬ (∃ i ∈ la, (s.vma parent i).Forked ∧ (s.vma parent i).HasPage q) →
    s'.mm.entry dc q = 0
  same : ∀ d ∈ D, ∀ q, q / 1024 < pdx uTop →
    ¬ (d = dp ∧ ∃ i ∈ la, (s.vma parent i).Forked ∧ (s.vma parent i).HasPage q) →
    s'.mm.entry d q = s.mm.entry d q
  pages : ∀ f, s.mm.Held f → s.mm.Plain D K f →
    s'.mm.Held f ∧ s'.mm.Plain (insert dc D) K f ∧ s'.mm.mem f = s.mm.mem f
  image : s'.image = s.image
  envFrame : s'.envFrame = s.envFrame

/-- **The state once the child has its directory `dc` and the areas of the parent**, and none of its
pages yet. -/
structure Inherited (s s' : Vm) (D K : Finset ℕ) (l' : List ℕ) (parent child dc : ℕ) (la : List ℕ) :
    Prop where
  inv : VmInv s' (insert dc D) K l'
  npages : s'.mm.npages = s.mm.npages
  fresh : dc ∉ D
  pgdir : s'.pgdir child = some dc
  others : ∀ e ≠ child, s'.envs e = s.envs e
  areas : ∃ lc lf, Areas (s'.envs child) lc lf ∧ ∀ b, (s'.envs child).Uses lc b ↔
    (s.envs parent).Uses la b
  empty : ∀ q, q / 1024 < pdx uTop → s'.mm.entry dc q = 0
  same : ∀ d ∈ D, ∀ q, q / 1024 < pdx uTop → s'.mm.entry d q = s.mm.entry d q
  pages : ∀ f, s.mm.Held f → s.mm.Plain D K f →
    s'.mm.Held f ∧ s'.mm.Plain (insert dc D) K f ∧ s'.mm.mem f = s.mm.mem f
  image : s'.image = s.image
  envFrame : s'.envFrame = s.envFrame

/-- The counter of pages is set, which nothing else reads, and `env_cpy_vmas` copies the areas. -/
theorem cpyVmas_inherited (h : VmInv s D K l) {s₁ : Vm} {dc : ℕ} {la lf : List ℕ} {n : BitVec 32}
    (hne : parent ≠ child) (har : Areas (s.envs parent) la lf) (hc : s.pgdir child = none)
    (hset : SetUp s s₁ D K l child dc) :
    Ends (fun _ => True)
      (fun r => r.1 = true ∧ Inherited s r.2 D K (l.erase dc) parent child dc la)
      (envCpyVmas (s₁.modSpace child fun sp => { sp with allocPages := n }) child parent) := by
  have henvp : s₁.envs parent = s.envs parent := by
    rw [hset.envs]
    exact Vm.modSpace_of_ne s _ hne
  obtain ⟨s₂, hs₂⟩ : ∃ s₂, s₂ = s₁.modSpace child fun sp => { sp with allocPages := n } := ⟨_, rfl⟩
  have honly₂ : OnlyAreas s₁ s₂ child := by
    rw [hs₂]
    exact OnlyAreas.modSpace s₁ child rfl
  have hpg₁ : s₁.pgdir child = some dc := by
    rw [Vm.pgdir, hset.envs, Vm.modSpace_self]
  have hinv₂ : VmInv s₂ (insert dc D) K (l.erase dc) := by
    obtain ⟨la', lf', har'⟩ := hset.inv.areas child
    rw [hs₂]
    refine hset.inv.modSpace child rfl ⟨la', lf', har'.congr rfl⟩ fun hnone => ?_
    rw [hpg₁] at hnone
    exact absurd hnone (by simp)
  have hpg₂ : s₂.pgdir child = some dc := honly₂.pgdir.trans hpg₁
  have henvp₂ : s₂.envs parent = s.envs parent := (honly₂.others parent hne).trans henvp
  -- the child has no areas yet
  obtain ⟨lc₂, lf₂, har₂⟩ := hinv₂.areas child
  have hempty : lc₂ = [] := by
    refine har₂.lists.alloc.eq_nil_iff.2 ?_
    have hlists : (s₂.envs child).allocVmaList = (s.envs child).allocVmaList := by
      rw [hs₂, Vm.modSpace_self, hset.envs, Vm.modSpace_self]
    rw [hlists]
    exact h.idle child hc
  subst hempty
  rw [← hs₂, envCpyVmas]
  refine (cpyVmas_loop hne nVma la _ none s₂ [] lf₂ hinv₂ (by simp [hpg₂]) ?_ ?_ ?_
    har₂ (by simp)).post ?_
  · rw [henvp₂]
    exact har.lists.alloc
  · intro i
    rw [Vm.vma, henvp₂]
    exact har.ok i
  · simp only [Vm.vma, henvp₂]
    exact har.apart
  rintro ⟨ok, s₃⟩ ⟨hr, honly₃, hinv₃, lc, lf₃, har₃, huses⟩
  have hmm : s₃.mm = s₁.mm := honly₃.mm.trans honly₂.mm
  refine ⟨hr, hinv₃, ?_, hset.fresh, honly₃.pgdir.trans hpg₂, fun e he => ?_,
    ⟨lc, lf₃, har₃, fun b => ?_⟩, fun q hq => ?_, ?_, ?_, ?_, ?_⟩
  · rw [hmm]
    exact hset.npages
  · rw [honly₃.others e he, honly₂.others e he, hset.envs]
    exact Vm.modSpace_of_ne s _ he
  · rw [huses, henvp₂]
    simp [Space.Uses]
  · rw [hmm]
    exact Mm.entry_of_absent (hset.empty _ hq)
  · rw [hmm]
    exact hset.entry
  · rw [hmm]
    exact hset.pages
  · rw [honly₃.image, honly₂.image, hset.image]
  · exact honly₃.envFrame.trans (honly₂.envFrame.trans hset.envFrame)

/-- `env_cpy_pgdir_cow` then makes the child a duplicate. -/
theorem Inherited.duplicated {s₃ s₄ : Vm} {l' l₄ : List ℕ} {dp dc : ℕ} {la lf : List ℕ}
    (h : Inherited s s₃ D K l' parent child dc la) (hdp : dp ∈ D)
    (har : Areas (s.envs parent) la lf)
    (hcop : Copied s₃ s₄ (insert dc D) K l₄ dp dc fun q => ∃ i ∈ la, (s.vma parent i).Forked ∧
      (s.vma parent i).HasPage q) :
    Duplicated s s₄ D K l₄ parent child dp dc la := by
  obtain ⟨lc, lf₃, har₃, huses⟩ := h.areas
  refine ⟨hcop.inv, hcop.npages.trans h.npages, h.fresh, ?_, fun e he => ?_,
    ⟨lc, lf₃, ?_, fun b => ?_⟩, ?_, ?_, ?_, fun f hf hpl => ?_, ?_,
    hcop.space.envFrame.trans h.envFrame⟩
  · rw [Vm.pgdir, hcop.space.envs]
    exact h.pgdir
  · rw [hcop.space.envs]
    exact h.others e he
  · rw [hcop.space.envs]
    exact har₃
  · rw [hcop.space.envs]
    exact huses b
  · rintro d hd q ⟨i, hi, hf, hq⟩
    have hlow := (har.ok i).page_low hq
    rw [hcop.copied d hd q hlow ⟨i, hi, hf, hq⟩, h.same dp hdp q hlow]
  · intro q hq hn
    rw [hcop.others dc (Finset.mem_insert_self dc D) q hq fun hc => hn hc.2]
    exact h.empty q hq
  · intro d hd q hq hn
    have hdne : d ≠ dc := by
      rintro rfl
      exact h.fresh hd
    rw [hcop.others d (Finset.mem_insert_of_mem hd) q hq, h.same d hd q hq]
    rintro ⟨hdd, hP⟩
    exact hn ⟨hdd.resolve_right hdne, hP⟩
  · obtain ⟨hh, hpl', hmem⟩ := h.pages f hf hpl
    obtain ⟨hh', hpl'', hmem'⟩ := hcop.pages f hh hpl'
    exact ⟨hh', hpl'', hmem'.trans hmem⟩
  · rw [hcop.space.image, h.image]

/-- **`env_dup`**: it finds no frame for a directory and does nothing, or not enough for the page
tables, or duplicates the parent. -/
theorem dup (h : VmInv s D K l) {dp : ℕ} {la lf : List ℕ} (hp : s.pgdir parent = some dp)
    (har : Areas (s.envs parent) la lf) (hc : s.pgdir child = none) (hchild : child ≤ nEnv) :
    Ends (fun _ => True)
      (fun r => r = (false, s) ∨ ∃ dc l',
        (r.1 = true ∧ Duplicated s r.2 D K l' parent child dp dc la) ∨
        (r.1 = false ∧ VmInv r.2 (insert dc D) K l' ∧ r.2.envFrame = s.envFrame))
      (envDup s parent child) := by
  have hne : parent ≠ child := by
    rintro rfl
    rw [hc] at hp
    exact absurd hp (by simp)
  rw [envDup, ends_bind]
  refine (h.setup hchild hc).mono (fun _ _ => True.intro) ?_
  rintro ⟨ok, s₁⟩ (⟨heq, -⟩ | ⟨hr, dc, hdc, hset⟩)
  · obtain ⟨rfl, rfl⟩ := Prod.mk.injEq .. ▸ heq
    exact Or.inl rfl
  obtain rfl : ok = true := hr
  have hset : SetUp s s₁ D K l child dc := hset
  have hdp : dp ∈ D := h.dir parent dp hp
  have hdcp : dp ≠ dc := by
    rintro rfl
    exact hset.fresh hdp
  simp only [not_true_eq_false, if_false]
  rw [ends_bind]
  refine (h.cpyVmas_inherited hne har hc hset).post ?_
  rintro ⟨ok, s₃⟩ ⟨hr, hinh⟩
  obtain rfl : ok = true := hr
  have hinh : Inherited s s₃ D K (l.erase dc) parent child dc la := hinh
  have henvp : s₃.envs parent = s.envs parent := hinh.others parent hne
  have hp₃ : s₃.pgdir parent = some dp := by
    rw [Vm.pgdir, henvp]
    exact hp
  have har₃ : Areas (s₃.envs parent) la lf := henvp.symm ▸ har
  have hvma : ∀ i, s₃.vma parent i = s.vma parent i :=
    fun i => congrArg (fun sp => Space.vmas sp i) henvp
  simp only [not_true_eq_false, if_false]
  refine (hinh.inv.cpyPgdir hp₃ hinh.pgdir hdcp har₃ fun i hi q hq => ?_).post ?_
  · exact hinh.empty q ((har₃.ok i).page_low hq)
  rintro ⟨ok, s₄⟩ (⟨hr, l₄, hcop⟩ | ⟨hr, l₄, hinv₄, hsp⟩)
  · simp only [hvma] at hcop
    exact Or.inr ⟨dc, l₄, Or.inl ⟨hr, hinh.duplicated hdp har hcop⟩⟩
  · exact Or.inr ⟨dc, l₄, Or.inr ⟨hr, hinv₄, hsp.envFrame.trans hinh.envFrame⟩⟩

end VmInv

end Jos
