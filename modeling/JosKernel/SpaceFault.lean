/-
**Page faults keep the address spaces in order.**

Each branch of `page_fault_handler` keeps the invariant of all address spaces, with two exceptions
that are conditions here: `page_dedup` drops a reference before it knows whether there is a frame
for the copy, and an environment that is killed must not take the last reference of the frame its
slot lies in.

Main results:

* `Jos.VmInv.dedup` — `page_dedup`;
* `Jos.VmInv.loadBinary`, `Jos.VmInv.allocAnon` — demand paging, with the bytes that the environment
  sees;
* `Jos.VmInv.fault` — the handler.
-/

import JosKernel.PageViews

set_option relaxedAutoImplicit false
set_option autoImplicit false

namespace Jos

open LinkedList Outcome

attribute [local irreducible] paddr vmaProcInit

/-! ### The end of sharing -/

theorem maps_or_pteW {w : BitVec 32} {f : ℕ} (h : Maps w f) : Maps (w ||| pteW) f := by
  refine ⟨?_, ?_⟩
  · rw [isPresent, or_flag_and (by decide)]
    exact h.1
  · rw [← pgnum_pteAddr, pteAddr, or_flag_and (by decide), ← pteAddr, pgnum_pteAddr]
    exact h.2

theorem CleanPte.or_pteW {w : BitVec 32} (h : CleanPte w) : CleanPte (w ||| pteW) := by
  unfold CleanPte at *
  rw [BitVec.and_or_distrib_right, BitVec.and_or_distrib_right, h]
  decide

/-- A frame that was handed out while the count of another one was off by some references. -/
theorem Taken.ofSetRef {s : Vm} {m : Mm} {req : BitVec 32} {pg pgn : ℕ} {n : BitVec 16}
    (h : Taken (s.setRef pg n).mm m req pgn) :
    Taken s.mm (({ s with mm := m } : Vm).setRef pg (s.ref pg)).mm req pgn where
  npages := h.npages
  premapped := h.premapped
  ref i := by
    rw [Vm.ppRef_setRef]
    by_cases hi : i = pg
    · rw [if_pos hi, hi]
      rfl
    · rw [if_neg hi]
      exact (h.ref i).trans ((Vm.ppRef_setRef ..).trans (if_neg hi))
  flags i hi := by
    rw [Vm.flags_setRef]
    exact (h.flags i hi).trans (Vm.flags_setRef ..)
  own := by
    rw [Vm.flags_setRef]
    exact h.own
  mem := h.mem
  zero := h.zero
  lruLists := h.lruLists
  lruLink := by
    rw [Vm.lruLink_setRef]
    exact h.lruLink.trans (Vm.lruLink_setRef ..)

/-- **What `page_dedup` leaves behind when it returns 1.** -/
structure Deduped (s s' : Vm) (D K : Finset ℕ) (l' : List ℕ) (d : ℕ) (va : BitVec 32)
    (w : BitVec 32) : Prop where
  inv : VmInv s' D K l'
  npages : s'.mm.npages = s.mm.npages
  refs : ∀ f ∈ K, s'.ref f = s.ref f
  rewrites : Rewrites s.mm s'.mm D d (vpn va) w
  content : s'.mm.mem (pgnum w) = s.mm.mem (pgnum (s.mm.entry d (vpn va)))
  mapped : isPresent w = true
  sole : s'.mm.mappings D (pgnum w) = 1
  pages : ∀ f, s.mm.Held f → s.mm.Plain D K f → s'.mm.Held f ∧ s'.mm.Plain D K f ∧
    s'.mm.mem f = s.mm.mem f
  space : SameSpaces s s'

namespace VmInv

variable {s : Vm} {D K : Finset ℕ} {l : List ℕ} {e d t pg pgn : ℕ} {va perm : BitVec 32}

/-- The only mapping of a page becomes writable. -/
theorem dedup_last (h : VmInv s D K l) (ht : s.mm.Table D d (pdx va) t)
    (hmap : Maps (s.mm.word t (ptx va)) pg) (href : s.ref pg = 1) :
    Deduped s (s.writePte ⟨t, ptx va⟩ va pg (s.mm.word t (ptx va) ||| pteW)) D K l d va
      (s.mm.word t (ptx va) ||| pteW) := by
  have hentry := ht.entry h.pt
  have hlow : vpn va / 1024 < pdx uTop := by
    rw [← pdx_eq]
    exact ht.2.1
  have hpos := mappings_pos ht.1 hlow (hentry ▸ hmap)
  obtain ⟨hheld, hplain⟩ := h.pt.held_of_mapped hpos
  have hset : EntrySet s (s.writePte ⟨t, ptx va⟩ va pg (s.mm.word t (ptx va) ||| pteW)) D K l d va
      (s.mm.word t (ptx va) ||| pteW) := by
    refine h.setEntry ht hheld hplain (maps_or_pteW hmap) ?_ (n := s.ref pg) ?_ ?_ ?_ ?_
    · have hc := h.clean d ht.1 _ hlow
      rw [hentry] at hc
      exact hc.or_pteW
    · intro g hg hm
      exact hg (hm.2.symm.trans hmap.2)
    · rw [if_pos hmap]
    · exact h.onlyAt_of_mapped ht.1 hlow (hentry ▸ hmap)
    · rw [Vm.setRef_self]
  have hpg : pgnum (s.mm.word t (ptx va) ||| pteW) = pg := (maps_or_pteW hmap).2
  refine ⟨hset.inv, rfl, fun _ _ => rfl, hset.rewrites, ?_, (maps_or_pteW hmap).1, ?_,
    hset.pages, hset.space⟩
  · rw [hpg, hentry, hmap.2]
    exact (hset.pages pg hheld hplain).2.2
  · rw [hpg]
    obtain ⟨hheld', hplain', -⟩ := hset.pages pg hheld hplain
    have hcount := hset.inv.pt.ref pg hheld'.1 hplain'
    have hlt := hset.inv.mappings_lt pg
    have hone : ((s.writePte ⟨t, ptx va⟩ va pg (s.mm.word t (ptx va) ||| pteW)).mm.pages pg).ppRef =
        1 := href
    rw [hone] at hcount
    have hnat := congrArg BitVec.toNat hcount
    rw [BitVec.toNat_ofNat, Nat.mod_eq_of_lt hlt] at hnat
    exact hnat.symm

/-- **The copy `pgn` of the page `pg` has been made** and entered at the index `k` of the page table
`t`; the reference of `pg` has gone. In `s₂` only the frame for the copy has been taken. -/
structure CopyMade (s s₂ s' : Vm) (t k pg pgn : ℕ) (va w : BitVec 32) : Prop where
  mem : ∀ g ≠ t, g ≠ pgn → s'.mm.mem g = s₂.mm.mem g
  copy : pgn ≠ t → s'.mm.mem pgn = s₂.mm.mem pg
  words : ∀ g ≠ pgn, ∀ j, s'.mm.word g j = if g = t ∧ j = k then w else s₂.mm.word g j
  refs : ∀ g, (s'.mm.pages g).ppRef = if g = pgn then 1 else if g = pg then s.ref pg - 1
    else (s.mm.pages g).ppRef
  flags : ∀ g, (s'.mm.pages g).pageFlags = (s₂.mm.pages g).pageFlags
  npages : s'.mm.npages = s₂.mm.npages
  space : SameSpaces s s'
  written : s'.written = ⟨va, pgn, w⟩ :: s.written

/-- The lines of `page_dedup` that make the copy. -/
theorem copyMade_of (hne : pg ≠ pgn) (hfree : (s.mm.pages pgn).ppRef = 0) {m : Mm}
    (htaken : Taken (s.setRef pg (s.ref pg - 1)).mm m allocZero pgn) (w : BitVec 32) (k : ℕ)
    {s' : Vm}
    (hs' : s' = (({ s with mm := { m with mem := Function.update m.mem pgn (m.mem pg) } } :
      Vm).writePte
      ⟨t, k⟩ va pgn w).setRef pgn ((m.pages pgn).ppRef + 1)) :
    CopyMade s (({ s with mm := m } : Vm).setRef pg (s.ref pg)) s' t k pg pgn va w where
  mem g hg hgn := by
    rw [hs']
    exact (Function.update_of_ne hg ..).trans (Function.update_of_ne hgn ..)
  copy htn := by
    rw [hs']
    exact (Function.update_of_ne htn ..).trans (Function.update_self ..)
  words g hg j := by
    have hbytes : ({ m with mem := Function.update m.mem pgn (m.mem pg) } : Mm).word g j =
        (({ s with mm := m } : Vm).setRef pg (s.ref pg)).mm.word g j := by
      refine Mm.word_of_mem ?_ j
      exact Function.update_of_ne hg ..
    rw [← hbytes, hs']
    exact Mm.word_setWord _ t k w g j
  refs g := by
    rw [hs', Vm.ppRef_setRef]
    by_cases hg : g = pgn
    · rw [if_pos hg, if_pos hg, htaken.ref, Vm.ppRef_setRef, if_neg hne.symm, hfree]
      rfl
    · rw [if_neg hg, if_neg hg]
      exact (htaken.ref g).trans (Vm.ppRef_setRef ..)
  flags g := by
    rw [hs']
    exact (Vm.flags_setRef ..).trans (Vm.flags_setRef ..).symm
  npages := by
    rw [hs']
    rfl
  space := by
    rw [hs']
    exact ⟨rfl, rfl, rfl, rfl⟩
  written := by
    rw [hs']
    rfl

/-- The page tables are exact after the copy. -/
theorem CopyMade.pt {s₂ s' : Vm} {w : BitVec 32} (hc : CopyMade s s₂ s' t (ptx va) pg pgn va w)
    (h₂ : PtInv s₂.mm D K (l.erase pgn)) (ht : s₂.mm.Table D d (pdx va) t)
    (hfree : FreeInv s'.mm (l.erase pgn)) (hne : pg ≠ pgn) (hw : Maps w pgn)
    (hheld : s₂.mm.Held pgn) (hplain : s₂.mm.Plain D K pgn) (hold : s₂.mm.Plain D K pg)
    (hmap : Maps (s₂.mm.word t (ptx va)) pg)
    (href : ∀ g, (s₂.mm.pages g).ppRef = (s.mm.pages g).ppRef)
    (hzero : (s.mm.pages pgn).ppRef = 0) :
    PtInv s'.mm D K (l.erase pgn) := by
  have hreads : ∀ g, PtInv.Reads s₂.mm D K g → g ≠ pgn := by
    rintro g hg rfl
    exact PtInv.not_plain_of_reads hg hplain
  refine h₂.edit ht (ptx_lt va) (fun g hg k => hc.words g (hreads g hg) k) hc.npages hfree
    (fun _ hg => Or.inl hg)
    (Or.inr ⟨hw.1, hw.2.symm ▸ hheld, hw.2.symm ▸ hplain⟩) (fun g => Or.inl (hc.flags g)) ?_ ?_
  · intro d' i g hg
    have hgp : g ≠ pg := by
      rintro rfl
      exact PtInv.not_plain_of_reads (Or.inr (Or.inr ⟨d', i, hg⟩)) hold
    rw [hc.refs, if_neg (hreads g (Or.inr (Or.inr ⟨d', i, hg⟩))), if_neg hgp]
    exact (href g).symm
  · intro g hg
    rw [hc.refs, href]
    by_cases hgn : g = pgn
    · have hnomap : ¬ Maps (s₂.mm.word t (ptx va)) pgn := fun hm => hne (hmap.2.symm.trans hm.2)
      rw [hgn, if_pos rfl, if_neg hnomap, if_pos hw, hzero]
      rfl
    · have hnomap : ¬ Maps w g := fun hm => hgn (hm.2.symm.trans hw.2)
      rw [if_neg hgn, if_neg hnomap]
      by_cases hgp : g = pg
      · subst hgp
        rw [if_pos rfl, if_pos hmap]
        change s.ref g - 1 + 1 = s.ref g + 0
        rw [BitVec.sub_add_cancel]
        exact (BitVec.add_zero ..).symm
      · rw [if_neg hgp, if_neg fun hm => hgp (hm.2.symm.trans hmap.2)]

/-- **A shared page gets a copy.** The reference of the old page is dropped before the frame for the
copy is taken. -/
theorem dedup_copy (h : VmInv s D K l) (ht : s.mm.Table D d (pdx va) t)
    (hmap : Maps (s.mm.word t (ptx va)) pg)
    (hperm : CleanPerm perm) {m : Mm} (hpgn : pgn ∈ l)
    (htaken : Taken (s.setRef pg (s.ref pg - 1)).mm m allocZero pgn)
    (hfree : FreeInv m (l.erase pgn)) {s' : Vm}
    (hs' : s' = (({ s with mm := { m with mem := Function.update m.mem pgn (m.mem pg) } } :
      Vm).writePte
      ⟨t, ptx va⟩ va pgn (insertPte pgn perm)).setRef pgn ((m.pages pgn).ppRef + 1)) :
    Deduped s s' D K (l.erase pgn) d va (insertPte pgn perm) := by
  have hentry := ht.entry h.pt
  have hlow : vpn va / 1024 < pdx uTop := by
    rw [← pdx_eq]
    exact ht.2.1
  have hpos := mappings_pos ht.1 hlow (hentry ▸ hmap)
  obtain ⟨hheld, hplain⟩ := h.pt.held_of_mapped hpos
  have hnl := h.pt.free.not_mem_of_held hheld
  have hzero := (h.pt.free.listed pgn hpgn).2.2
  have hne : pg ≠ pgn := by
    rintro rfl
    exact hnl hpgn
  have hmade := copyMade_of hne hzero htaken (insertPte pgn perm) (ptx va) hs'
  -- the state in which only the frame for the copy has been taken
  obtain ⟨s₂, hs₂⟩ : ∃ s₂, s₂ = ({ s with mm := m } : Vm).setRef pg (s.ref pg) := ⟨_, rfl⟩
  rw [← hs₂] at hmade
  have htaken₂ : Taken s.mm s₂.mm allocZero pgn := hs₂ ▸ htaken.ofSetRef
  have hfree₂ : FreeInv s₂.mm (l.erase pgn) := by
    rw [hs₂]
    exact FreeInv.setRef_vm (s := { s with mm := m }) _ hfree fun hmem =>
      hnl (List.mem_of_mem_erase hmem)
  obtain ⟨hinv₂', hheldn, hplainn, hzeron⟩ := h.take hpgn htaken₂ hfree₂
  have heq₂ : ({ s with mm := s₂.mm } : Vm) = s₂ := by rw [hs₂]; rfl
  have hinv₂ : VmInv s₂ D K (l.erase pgn) := heq₂ ▸ hinv₂'
  have hdirs : ∀ d' ∈ D, ∀ i, s₂.mm.word d' i = s.mm.word d' i := by
    intro d' hd' i
    refine Mm.word_of_mem (htaken₂.mem d' ?_) i
    rintro rfl
    exact (h.pt.plain_free hpgn).1 hd'
  have ht₂ : s₂.mm.Table D d (pdx va) t := (PtInv.table_congr hdirs).2 ht
  have htn : t ≠ pgn := by
    rintro rfl
    exact hplainn.2.2 _ _ ht₂
  have hwt : s₂.mm.word t (ptx va) = s.mm.word t (ptx va) := Mm.word_of_mem (htaken₂.mem t htn) _
  have hplain₂ : s₂.mm.Plain D K pg := (PtInv.plain_congr hdirs).2 hplain
  have hw := insertPte_maps hheldn.lt_pow hperm.lt
  have hfree' : FreeInv s'.mm (l.erase pgn) := by
    rw [hs']
    exact FreeInv.setRef_vm _ (FreeInv.setWord _ _ _ (hfree.setMem _))
      (hinv₂.pt.free.not_mem_of_held hheldn)
  have hpt :=
    hmade.pt hinv₂.pt ht₂ hfree' hne hw hheldn hplainn hplain₂ (hwt ▸ hmap) htaken₂.ref hzero
  have hreads : ∀ g, PtInv.Reads s₂.mm D K g → g ≠ pg ∧ g ≠ pgn := by
    intro g hg
    constructor
    · rintro rfl
      exact PtInv.not_plain_of_reads hg hplain₂
    · rintro rfl
      exact PtInv.not_plain_of_reads hg hplainn
  have hrefsOf : ∀ g, PtInv.Reads s₂.mm D K g → s'.ref g = s.ref g := by
    intro g hg
    obtain ⟨h₁, h₂⟩ := hreads g hg
    refine (hmade.refs g).trans ?_
    rw [if_neg h₂, if_neg h₁]
    rfl
  have hdirs' : ∀ d' ∈ D, ∀ i, s'.mm.word d' i = s₂.mm.word d' i := by
    intro d' hd' i
    rw [hmade.words d' (hreads d' (Or.inl hd')).2, if_neg]
    rintro ⟨rfl, -⟩
    exact (hinv₂.pt.table _ _ _ ht₂).2.1 hd'
  have hrw : Rewrites s.mm s'.mm D d (vpn va) (insertPte pgn perm) := by
    intro d' hd' q hq
    have hstep :=
      hinv₂.pt.entry_write ht₂ (ptx_lt va) (fun g hg k => hmade.words g (hreads g hg).2 k) hd' hq
    rw [vpn_eq] at hstep
    rw [hstep, (h.pt.take hpgn htaken₂ hfree₂).2 d' hd' q hq]
  have hinv' : VmInv s' D K (l.erase pgn) := by
    refine h.ofWrite hpt (hmade.npages.trans htaken₂.npages)
      (fun d' hd' q hq => hrw d' hd' q (PtInv.lt_pow_of_low hq))
      (hperm.insertPte pgn) ?_ ?_ (fun d' hd' => hrefsOf d' (Or.inl hd')) hmade.space
    · intro d' hd' q hq f hf hm
      obtain rfl : pgn = f := hw.2.symm.trans hf.2
      have hposn := mappings_pos hd' hq hm
      rw [h.pt.mappings_free hpgn] at hposn
      omega
    · exact .cons (w := ⟨va, pgn, insertPte pgn perm⟩) hmade.written (cleanWrite_insert hperm rfl)
  have hpages : ∀ f, s.mm.Held f → s.mm.Plain D K f →
      s'.mm.Held f ∧ s'.mm.Plain D K f ∧ s'.mm.mem f = s.mm.mem f := by
    intro f hf hp
    have hfn : f ≠ pgn := by
      rintro rfl
      exact h.pt.free.not_mem_of_held hf hpgn
    have hft : f ≠ t := by
      rintro rfl
      exact hp.2.2 _ _ ht
    refine ⟨?_, ?_, (hmade.mem f hft hfn).trans (htaken₂.mem f hfn)⟩
    · exact hf.congr (hmade.npages.trans htaken₂.npages)
        ((hmade.flags f).trans (htaken₂.flags f hfn))
    · exact (PtInv.plain_congr hdirs').2 ((PtInv.plain_congr hdirs).2 hp)
  refine ⟨hinv', hmade.npages.trans htaken₂.npages, fun f hf => hrefsOf f (Or.inr (Or.inl hf)), hrw,
    ?_, hw.1, ?_, hpages, hmade.space⟩
  · rw [hw.2, hentry, hmap.2]
    exact (hmade.copy htn.symm).trans (htaken₂.mem pg hne)
  · rw [hw.2]
    have hmaps :=
      mappings_update ht.1 hlow (fun d' hd' q hq => hrw d' hd' q (PtInv.lt_pow_of_low hq)) pgn
    have hnomap : ¬ Maps (s.mm.entry d (vpn va)) pgn := by
      rw [hentry]
      exact fun hm => hne (hmap.2.symm.trans hm.2)
    rw [if_neg hnomap, if_pos hw, h.pt.mappings_free hpgn] at hmaps
    omega

/-- **`page_dedup`** of a page that is mapped: it fails only when the page is shared and no frame is
free. -/
theorem dedup (h : VmInv s D K l) (hdir : s.pgdir e = some d) {la lf : List ℕ}
    (har : Areas (s.envs e) la lf) (hva : va < uTop) (hmap : Maps (s.mm.entry d (vpn va)) pg) :
    Ends (fun _ => True)
      (fun r => (r.1 = true ∧ ∃ l' w, Deduped s r.2 D K l' d va w ∧
          ((s.ref pg = 1 ∧ w = s.mm.entry d (vpn va) ||| pteW) ∨
            ∃ i ∈ la, (s.vma e i).covers va = true ∧ ∃ pgn, w = insertPte pgn (s.vma e i).perm)) ∨
        (r.1 = false ∧ l = [] ∧ s.ref pg ≠ 1))
      (pageDedup s e va) := by
  have hd : d ∈ D := h.dir e d hdir
  have hlow := low_vpn hva
  rcases h.pt.entry_cases hd hlow with ⟨-, hz⟩ | ⟨t, ht, hw⟩
  · rw [hz] at hmap
    exact absurd hmap (not_maps_zero pg)
  rw [← pdx_eq] at ht
  rw [← ptx_eq] at hw
  rw [hw] at hmap
  rw [pageDedup, ends_bind]
  refine (har.vmaLookup va).mono (fun _ hf => hf.elim) fun v hv => ?_
  rw [hdir, pgdirWalk_table ht.2.2 (h.pt.small d hd _ ht.2.1 ht.2.2.1) (h.pt.table _ _ _ ht).1.1,
    ends_bind, ends_ok]
  have hpte : s.pte ⟨t, ptx va⟩ = s.mm.word t (ptx va) := rfl
  dsimp only
  rw [hpte, ends_bind]
  refine (pa2page_ends _ _).post fun pg' hpg' => ?_
  obtain rfl : pg' = pg := by rw [hpg', pgnum_pteAddr, hmap.2]
  refine ends_ite (fun href => ?_) fun href => ?_
  · refine Or.inl ⟨rfl, l, _, h.dedup_last ht hmap href, Or.inl ⟨href, ?_⟩⟩
    rw [hw]
  refine ends_ite (fun _ => True.intro) fun href₀ => ?_
  have hheld := (h.pt.held_of_mapped (mappings_pos hd hlow (hw.symm ▸ hmap))).1
  have hsmall : isHuge (s.mm.word t (ptx va)) = false := by
    have hc := h.clean d hd _ hlow
    rw [hw] at hc
    exact hc.not_huge
  have hreq : ∀ n, (if isHuge ((s.setRef pg' n).pte ⟨t, ptx va⟩) = true then allocHuge
      else allocZero) = allocZero := by
    intro n
    change (if isHuge (s.mm.word t (ptx va)) = true then allocHuge else allocZero) = allocZero
    rw [hsmall]
    rfl
  rw [hreq, ends_bind]
  have hfree₁ : FreeInv (s.setRef pg' (s.ref pg' - 1)).mm l :=
    h.pt.free.setRef_vm _ (h.pt.free.not_mem_of_held hheld)
  refine (pageAlloc_taken hfree₁ (by decide) (by decide)).mono (fun _ _ => True.intro) ?_
  rintro ⟨r, m⟩ (⟨heq, hl⟩ | ⟨pgn, hpgn, hr, htaken, hfree, -⟩)
  · obtain ⟨rfl, rfl⟩ := Prod.mk.injEq .. ▸ heq
    exact Or.inr ⟨rfl, hl, href⟩
  · obtain rfl : r = some pgn := hr
    rcases hv with ⟨rfl, -⟩ | ⟨i, hi, rfl, hcov⟩
    · exact True.intro
    · dsimp only
      rw [copyPage]
      simp only [ends_bind]
      have hk : ∀ (pa : BitVec 32) (n : ℕ) {Q : BitVec 32 → Prop}, (∀ x, Q x) →
          Ends (fun _ => True) Q (kaddr n pa) := by
        intro pa n Q hQ
        exact ends_ite (fun _ => True.intro) fun _ => hQ _
      refine hk _ _ fun _ => hk _ _ fun _ => ?_
      refine Or.inl ⟨rfl, l.erase pgn, _, h.dedup_copy ht hmap (har.ok i).perm hpgn htaken hfree
        rfl, Or.inr ?_⟩
      exact ⟨i, hi, hcov, pgn, rfl⟩

end VmInv

/-- A page that has been made writable. -/
theorem Deduped.served {s s' : Vm} {D K : Finset ℕ} {l l' : List ℕ} {d : ℕ} {va w : BitVec 32}
    (h : Deduped s s' D K l' d va w) (hs : VmInv s D K l) (hd : d ∈ D) (hva : va < uTop)
    (hP : isPresent (s.mm.entry d (vpn va)) = true) :
    Served s s' D K l' d (· = vpn va) ∧ ∀ o, s'.mm.cell d (vpn va) o = s.mm.cell d (vpn va) o := by
  have hentry : ∀ d' ∈ D, ∀ q, q / 1024 < pdx uTop → s'.mm.entry d' q = if d' = d ∧
      q = vpn va then w else s.mm.entry d' q :=
    fun d' hd' q hq => h.rewrites d' hd' q (PtInv.lt_pow_of_low hq)
  have hself := hentry d hd (vpn va) (low_vpn hva)
  rw [if_pos ⟨rfl, rfl⟩] at hself
  refine ⟨⟨h.inv, .ofSpaces h.space h.npages h.refs,
    ⟨fun d' hd' q hq hn => ?_, fun d' hd' q hq hn hP' => ?_⟩, fun hun => ?_⟩,
    fun o => ?_⟩
  · rw [hentry d' hd' q hq, if_neg hn]
  · obtain ⟨hheld, hplain⟩ := hs.held_of_present hd' hq hP'
    exact (h.pages _ hheld hplain).2.2
  · refine hun.rewrites hentry fun _ d' hd' hne hmap => ?_
    have hmap' : Maps (s'.mm.entry d' (vpn va)) (pgnum w) := by
      rw [hentry d' hd' _ (low_vpn hva), if_neg fun hc => hne hc.1]
      exact hmap
    exact absurd (eq_of_mappings_one h.sole hd (low_vpn hva) hd' (low_vpn hva)
      (hself.symm ▸ ⟨h.mapped, rfl⟩) hmap').1 hne
  · refine Mm.cell_congr ?_ fun _ => ?_
    · rw [hself, h.mapped, hP]
    · rw [hself]
      exact h.content

/-! ### Demand paging -/

/-- One page is left, and the address has no page table. -/
def NoTable (s : Vm) (e : ℕ) (va : BitVec 32) : Prop :=
  (∃ f, s.mm.pageFreeList = some f ∧ s.mm.link f = none) ∧ ∃ d, s.pgdir e = some d ∧
    isPresent (s.mm.word d (pdx va)) = false

/-- **The fault destroys the environment**: no area has the address, or the area may not be written
to, or a page table is missing. -/
def FaultKills (s : Vm) (e : ℕ) (va : BitVec 32) (prot : Bool) : Prop :=
  vmaLookup (s.envs e) va = .ok none ∨ ∃ v, vmaLookup (s.envs e) va = .ok (some v) ∧
    if prot then isWritable (s.vma e v).perm = false else (s.vma e v).type ≠ .binary ∧
    NoTable s e va

/-- The only page on the list. -/
theorem FreeInv.last {s : Mm} {l : List ℕ} (h : FreeInv s l) {f : ℕ} (hf : f ∈ l)
    (hnil : l.erase f = []) :
    s.pageFreeList = some f ∧ s.link f = none := by
  have hl : l = [f] := (List.erase_eq_nil_iff.1 hnil).resolve_left (List.ne_nil_of_mem hf)
  have hchain := h.chain
  rw [hl] at hchain
  simpa using hchain

namespace VmInv

variable {s : Vm} {D K : Finset ℕ} {l : List ℕ} {e d : ℕ} {va perm : BitVec 32}

/-- What it means that a frame has been handed out. -/
structure TookFrame (s s' : Vm) (D K : Finset ℕ) (l' : List ℕ) (d pp : ℕ) : Prop extends
    Served s s' D K l' d fun _ => False where
  held : s'.mm.Held pp
  plain : s'.mm.Plain D K pp
  unmapped : s'.mm.mappings D pp = 0
  words : ∀ d' ∈ D, ∀ i, s'.mm.word d' i = s.mm.word d' i

/-- **`page_alloc`** of a frame for a page. -/
theorem allocFrame (h : VmInv s D K l) (d : ℕ) {req : BitVec 32} (hh : req &&& allocHuge = 0)
    (hp : req &&& poisonAfterFree = 0) :
    Ends (fun _ => True)
      (fun r => (r = (none, s.mm) ∧ l = []) ∨ ∃ pp ∈ l, r.1 = some pp ∧
        TookFrame s { s with mm := r.2 } D K (l.erase pp) d pp ∧
        (req &&& allocZero ≠ 0 → r.2.mem pp = fun _ => 0))
      (pageAlloc s.mm req) := by
  refine (pageAlloc_taken h.pt.free hh hp).mono (fun _ _ => True.intro) ?_
  rintro r (hr | ⟨pp, hpp, hr, ht, hfree, -⟩)
  · exact Or.inl hr
  obtain ⟨hinv, hheld, hplain, hzero⟩ := h.take hpp ht hfree
  have hentry := (h.pt.take hpp ht hfree).2
  refine Or.inr ⟨pp, hpp, hr,
    ⟨⟨hinv, .ofSpaces ⟨rfl, rfl, rfl, rfl⟩ ht.npages fun f _ => ht.ref f, ⟨?_, ?_⟩, ?_⟩,
    hheld, hplain, hzero, fun d' hd' i => ?_⟩, ht.zero⟩
  · exact fun d' hd' q hq _ => hentry d' hd' q (PtInv.lt_pow_of_low hq)
  · intro d' hd' q hq _ hP
    refine ht.mem _ ?_
    intro heq
    have hheld' := (h.held_of_present hd' hq hP).1
    rw [heq] at hheld'
    exact h.pt.free.not_mem_of_held hheld' hpp
  · exact fun hun => hun.congr fun d' hd' q hq => hentry d' hd' q (PtInv.lt_pow_of_low hq)
  · refine Mm.word_of_mem (ht.mem d' ?_) i
    rintro rfl
    exact h.pt.free.not_mem_of_held (h.pt.held d' hd') hpp

/-- The frame is put on the list of pages in use. -/
theorem TookFrame.lru {s s' : Vm} {l' : List ℕ} {pp : ℕ} (h : TookFrame s s' D K l' d pp) :
    TookFrame s { s' with mm := lruHaInsert s'.mm pp } D K l' d pp := by
  have hlru := lruHaInsert_lruOnly s'.mm pp
  refine ⟨h.toServed.lru pp, h.held.congr hlru.npages (hlru.flags pp), ?_, ?_, fun d' hd' i => ?_⟩
  · exact (PtInv.plain_congr fun g _ k => Mm.word_of_mem (congrFun hlru.mem g) k).2 h.plain
  · rw [← h.unmapped]
    exact mappings_congr (fun d' _ q _ => entry_of_mem hlru.mem d' q) pp
  · rw [← h.words d' hd' i]
    exact Mm.word_of_mem (congrFun hlru.mem d') i

/-- It is counted. -/
theorem TookFrame.addPages {s s' : Vm} {l' : List ℕ} {pp : ℕ} (h : TookFrame s s' D K l' d pp)
    (e : ℕ) (n : BitVec 32) :
    TookFrame s (Jos.addPages s' e n) D K l' d pp :=
  ⟨h.toServed.addPages e n, h.held, h.plain, h.unmapped, h.words⟩

/-- `page_insert` does not fail where there is a page table. -/
theorem pageInsert_true {t pp : ℕ} (hmap : Maps (s.mm.word d (pdx va)) t)
    (hsmall : isHuge (s.mm.word d (pdx va)) = false) (htlt : t < s.mm.npages)
    (hperm : isHuge perm = false) :
    Ends (fun _ => True) (fun r => r.1 = true) (pageInsert s (some d) (some pp) va perm) := by
  have hcreate : (if isHuge perm = true then Create.huge else Create.normal) = .normal := by
    rw [hperm]
    rfl
  unfold pageInsert
  dsimp only
  refine ends_ite (fun _ => True.intro) fun _ => ?_
  rw [hcreate, pgdirWalk_table hmap hsmall htlt, ends_bind, ends_ok]
  refine Ends.ite_bind ?_
  exact Ends.of_forall (fun _ => rfl) _

/-- **`page_insert`** of a frame that has just been handed out. -/
theorem insertFresh {s s₁ : Vm} {l₁ : List ℕ} {pp : ℕ} (h : TookFrame s s₁ D K l₁ d pp) (hd : d ∈ D)
    (hva : va < uTop) (hperm : CleanPerm perm) :
    Ends (fun _ => True)
      (fun r => (r = (false, s₁) ∧ l₁ = [] ∧ isPresent (s.mm.word d (pdx va)) = false) ∨
        (r.1 = true ∧ ∃ l', Served s r.2 D K l' d (· = vpn va) ∧ r.2.mm.entry d (vpn va) =
          insertPte pp perm ∧
          r.2.mm.mem pp = s₁.mm.mem pp))
      (pageInsert s₁ (some d) (some pp) va perm) := by
  have htrue : Ends (fun _ => True) (fun r => isPresent (s₁.mm.word d (pdx va)) = true → r.1 = true)
      (pageInsert s₁ (some d) (some pp) va perm) := by
    by_cases hP : isPresent (s₁.mm.word d (pdx va)) = true
    · have hlow : pdx va < pdx uTop := by
        rw [pdx_eq]
        exact low_vpn hva
      have ht : s₁.mm.Table D d (pdx va) (pgnum (s₁.mm.word d (pdx va))) := ⟨hd, hlow, hP, rfl⟩
      refine (pageInsert_true ht.2.2 (h.inv.pt.small d hd _ hlow hP) (h.inv.pt.table _ _ _ ht).1.1
        hperm.not_huge).post ?_
      exact fun _ hr _ => hr
    · exact Ends.of_forall (fun _ hc => absurd hc hP) _
  refine ((h.inv.inserted hd hva h.held h.plain (onlyAt_of_unmapped h.unmapped _) hperm).and
    htrue).mono (fun _ _ => True.intro) ?_
  rintro ⟨ok, s₂⟩ ⟨⟨heq, hnil⟩ | ⟨hr, l₂, hinv₂, hins⟩, hok⟩
  · refine Or.inl ⟨heq, hnil, Bool.eq_false_of_not_eq_true fun hP => ?_⟩
    have hok := hok (by rw [h.words d hd]; exact hP)
    rw [heq] at hok
    exact absurd hok (by simp)
  have hinv₂ : VmInv s₂ D K l₂ := hinv₂
  have hins : Inserted s₁ s₂ D K l₁ l₂ d pp va perm := hins
  have hmap := insertPte_maps h.held.lt_pow hperm.lt
  refine Or.inr ⟨hr, l₂, ⟨hinv₂, h.keeps.trans (.ofSpaces hins.space hins.npages fun f hf =>
    hins.refs f (Or.inr hf)),
    (h.aside.mono fun _ hf => hf.elim).trans (hins.aside h.inv hinv₂), fun hun => ?_⟩, hins.entry,
    ?_⟩
  · refine hins.unshared h.inv (h.unshared hun) h.held.lt_pow hperm.lt fun d' hd' _ hm => ?_
    exact absurd h.unmapped (Nat.pos_iff_ne_zero.1 (mappings_pos hd' (low_vpn hva) hm))
  · refine hins.mem pp h.held h.plain ?_
    have hheld := (hinv₂.held_of_present hd (low_vpn hva) (by rw [hins.entry]; exact hmap.1)).1
    rw [hins.entry, hmap.2] at hheld
    exact hheld

/-- **One round of `region_alloc`.** -/
theorem regionRound (h : VmInv s D K l) (hdir : s.pgdir e = some d) (hperm : CleanPerm perm) {i : ℕ}
    (hva : pageAt va i < uTop) :
    Ends (fun _ => True)
      (fun s' => ∃ l', Served s s' D K l' d (· = vpn (pageAt va i)) ∧
        ∃ pp, s'.mm.entry d (vpn (pageAt va i)) = insertPte pp perm)
      (regionAllocRound e va perm s i) := by
  have hd : d ∈ D := h.dir e d hdir
  rw [regionAllocRound, ends_bind]
  refine (h.allocFrame d (by decide) (by decide)).post ?_
  rintro ⟨r, m⟩ (⟨heq, -⟩ | ⟨pp, hpp, hr, htook, -⟩)
  · obtain ⟨rfl, rfl⟩ := Prod.mk.injEq .. ▸ heq
    exact True.intro
  obtain rfl : r = some pp := hr
  have htook : TookFrame s { s with mm := m } D K (l.erase pp) d pp := htook
  have hdir₁ : ({ s with mm := m } : Vm).pgdir e = some d := hdir
  dsimp only
  rw [hdir₁, ends_bind]
  refine (insertFresh htook hd hva hperm).post ?_
  rintro ⟨ok, s₂⟩ (⟨heq, -⟩ | ⟨hr, l₂, hserved, hentry, -⟩)
  · obtain ⟨rfl, rfl⟩ := Prod.mk.injEq .. ▸ heq
    exact True.intro
  obtain rfl : ok = true := hr
  have hserved : Served s s₂ D K l₂ d (· = vpn (pageAt va i)) := hserved
  refine ⟨l₂, (hserved.lru pp).addPages e 1, pp, ?_⟩
  exact (entry_of_mem (lruHaInsert_lruOnly s₂.mm pp).mem d _).trans hentry

/-- The pages of an area, one after the other. -/
theorem pageAt_toNat {v : Vma} (hok : AreaOk v) {i : ℕ} (hi : i < v.len.toNat / 4096) :
    (pageAt v.va i).toNat = v.va.toNat + i * 4096 := by
  have hlow := hok.low
  have hU : uTop.toNat = 4005560320 := rfl
  have hmul : i * 4096 < 2 ^ 32 := by omega
  rw [pageAt, pgSize, BitVec.toNat_add, BitVec.toNat_ofNat, Nat.mod_eq_of_lt hmul,
    Nat.mod_eq_of_lt (by omega)]

theorem pageAt_low {v : Vma} (hok : AreaOk v) {i : ℕ} (hi : i < v.len.toNat / 4096) :
    pageAt v.va i < uTop ∧ vpn (pageAt v.va i) = vpn v.va + i := by
  have hlow := hok.low
  have hpage := hok.page
  have hnat := pageAt_toNat hok hi
  rw [BitVec.lt_def, vpn, vpn, hnat]
  omega

theorem hasPage_iff_index {v : Vma} (hok : AreaOk v) {q : ℕ} :
    v.HasPage q ↔ vpn v.va ≤ q ∧ q < vpn v.va + v.len.toNat / 4096 := by
  have hpage := hok.page
  rw [hok.hasPage_iff, vpn]
  omega

theorem pageCount_of_page {len : BitVec 32} (h : len.toNat % 4096 = 0) :
    pageCount len = len.toNat / 4096 := by
  rw [pageCount, roundUp_of_page h]
  rfl

/-- **`region_alloc`** of a whole area. -/
theorem regionAlloc (h : VmInv s D K l) (hdir : s.pgdir e = some d) (hperm : CleanPerm perm)
    {v : Vma} (hok : AreaOk v) :
    Ends (fun _ => True)
      (fun s' => ∃ l', Served s s' D K l' d v.HasPage ∧ ∀ q, v.HasPage q →
        ∃ pp, s'.mm.entry d q = insertPte pp perm)
      (regionAlloc s e v.va v.len perm) := by
  have hdown : roundDown v.va (BitVec.ofNat 32 pgSize) = v.va := by
    have hz : v.va % BitVec.ofNat 32 pgSize = 0 := mod_pgSize_eq_zero.2 hok.page.1
    rw [roundDown, hz]
    exact BitVec.sub_zero ..
  have hlen : v.len + (v.va - v.va) = v.len := by
    rw [BitVec.sub_self]
    exact BitVec.add_zero ..
  rw [Jos.regionAlloc]
  rw [hdown, hlen, pageCount_of_page hok.page.2, List.range_eq_range']
  refine (ends_foldlM_range' (P := fun n s' => ∃ l', Served s s' D K l' d v.HasPage ∧
    ∀ q, vpn v.va ≤ q → q < vpn v.va + n → ∃ pp, s'.mm.entry d q = insertPte pp perm) ?_ ?_).post ?_
  · exact ⟨l, Served.refl h, fun q h₁ h₂ => by omega⟩
  · rintro n hn s₁ ⟨l₁, hs₁, he₁⟩
    obtain ⟨hlt, hvpn⟩ := pageAt_low hok hn
    have hd : d ∈ D := h.dir e d hdir
    rw [Nat.zero_add]
    refine (hs₁.inv.regionRound ((hs₁.keeps.pgdir e).trans hdir) hperm hlt).post ?_
    rintro s₂ ⟨l₂, hs₂, pp, he₂⟩
    rw [hvpn] at hs₂ he₂
    have hin : v.HasPage (vpn v.va + n) := (hasPage_iff_index hok).2 (by omega)
    refine ⟨l₂, hs₁.trans (hs₂.mono fun q hq => hq.symm ▸ hin), fun q h₁ h₂ => ?_⟩
    by_cases hq : q = vpn v.va + n
    · exact ⟨pp, hq.symm ▸ he₂⟩
    · obtain ⟨pp', he'⟩ := he₁ q h₁ (by omega)
      refine ⟨pp', (hs₂.aside.entry d hd q ?_ fun hc => hq hc.2).trans he'⟩
      exact hok.page_low ((hasPage_iff_index hok).2 (by omega))
  · rintro s' ⟨l', hs', he⟩
    refine ⟨l', hs', fun q hq => ?_⟩
    obtain ⟨h₁, h₂⟩ := (hasPage_iff_index hok).1 hq
    exact he q h₁ h₂

/-! ### What the hardware finds -/

/-- The translation of an address below `UTOP` reads its page table entry. -/
theorem mmu_cases (h : VmInv s D K l) (hdir : s.pgdir e = some d) (hva : va < uTop)
    (user write : Bool) :
    (mmu s e va user write = .notPresent ∧ isPresent (s.mm.entry d (vpn va)) = false) ∨
    (mmu s e va user write = .protection ∧ isPresent (s.mm.entry d (vpn va)) = true) ∨
    (mmu s e va user write = .frame (pgnum (s.mm.entry d (vpn va))) ∧
      isPresent (s.mm.entry d (vpn va)) = true ∧
      allows (s.mm.entry d (vpn va)) user write = true) := by
  have hd : d ∈ D := h.dir e d hdir
  have hlow := low_vpn hva
  have hpx := pdx_lt_of_lt hva
  unfold mmu
  rw [hdir]
  dsimp only
  rcases h.pt.entry_cases hd hlow with ⟨habs, hz⟩ | ⟨t, ht, hw⟩
  · have hP : ¬ isPresent (s.pte ⟨d, pdx va⟩) = true := by
      rw [Bool.not_eq_true, pdx_eq]
      exact habs
    rw [hz, if_pos hP]
    exact Or.inl ⟨rfl, rfl⟩
  · rw [← pdx_eq] at ht
    rw [← ptx_eq] at hw
    have hP : ¬ ¬ isPresent (s.pte ⟨d, pdx va⟩) = true := not_not_intro ht.2.2.1
    have hsmall : ¬ isHuge (s.pte ⟨d, pdx va⟩) = true := by
      rw [Bool.not_eq_true]
      exact h.pt.small d hd _ hpx ht.2.2.1
    have htab : pgnum (s.pte ⟨d, pdx va⟩) = t := ht.2.2.2
    have hpte : s.pte ⟨t, ptx va⟩ = s.mm.entry d (vpn va) := hw.symm
    rw [if_neg hP, if_neg hsmall, htab, hpte]
    by_cases hPe : isPresent (s.mm.entry d (vpn va)) = true
    · rw [if_neg (not_not_intro hPe)]
      by_cases hal :
        (allows (s.pte ⟨d, pdx va⟩) user write && allows (s.mm.entry d (vpn va)) user write) = true
      · rw [if_pos hal]
        rw [Bool.and_eq_true] at hal
        exact Or.inr (Or.inr ⟨rfl, hPe, hal.2⟩)
      · rw [if_neg hal]
        exact Or.inr (Or.inl ⟨rfl, hPe⟩)
    · rw [if_pos hPe]
      exact Or.inl ⟨rfl, Bool.eq_false_of_not_eq_true hPe⟩

/-- A byte of a page is written. -/
theorem setByte (h : VmInv s D K l) (hd : d ∈ D) (hva : va < uTop) {f o : ℕ} {b : BitVec 8}
    (hmap : Maps (s.mm.entry d (vpn va)) f) :
    VmInv (s.setByte f o b) D K l ∧ Keeps s (s.setByte f o b) K ∧
      ∀ d' ∈ D, ∀ q, q / 1024 < pdx uTop → (s.setByte f o b).mm.entry d' q = s.mm.entry d' q := by
  obtain ⟨-, hplain⟩ := h.pt.held_of_mapped (mappings_pos hd (low_vpn hva) hmap)
  have hm : ∀ g, ¬ s.mm.Plain D K g → (s.setByte f o b).mm.mem g = s.mm.mem g := by
    intro g hg
    refine Function.update_of_ne ?_ ..
    rintro rfl
    exact hg hplain
  have hword : ∀ g, PtInv.Reads s.mm D K g → ∀ k, (s.setByte f o b).mm.word g k = s.mm.word g k :=
    fun g hg k => Mm.word_of_mem (hm g (PtInv.not_plain_of_reads hg)) k
  refine ⟨h.writeBytes hm, .ofSpaces ⟨rfl, rfl, rfl, rfl⟩ rfl fun _ _ => rfl, fun d' hd' q hq => ?_⟩
  exact h.pt.entry_same hword hd' (PtInv.lt_pow_of_low hq)

/-- **A byte of a page that may be written to**: one directory sees the change. -/
theorem setByte_cell (h : VmInv s D K l) (hun : Unshared s.mm D) (hd : d ∈ D) (hva : va < uTop)
    {f : ℕ} {b : BitVec 8} (hmap : Maps (s.mm.entry d (vpn va)) f)
    (hw : isWritable (s.mm.entry d (vpn va)) = true) :
    ∀ d' ∈ D, ∀ q, q / 1024 < pdx uTop → ∀ o, (s.setByte f (pgoff va) b).mm.cell d' q o =
      if d' = d ∧ q = vpn va ∧ o = pgoff va then some b else s.mm.cell d' q o := by
  intro d' hd' q hq o
  have hentry := (h.setByte hd hva (o := pgoff va) (b := b) hmap).2.2 d' hd' q hq
  have hmem : ∀ g o', (s.setByte f (pgoff va) b).mm.mem g o' = if g = f ∧ o' = pgoff va then b
      else s.mm.mem g o' := by
    intro g o'
    change Function.update s.mm.mem f (Function.update (s.mm.mem f) (pgoff va) b) g o' = _
    by_cases hg : g = f
    · rw [hg, Function.update_self, Function.update_apply]
      simp
    · rw [Function.update_of_ne hg, if_neg fun hc => hg hc.1]
  unfold Mm.cell
  rw [hentry, hmem]
  by_cases hP : isPresent (s.mm.entry d' q) = true
  · rw [if_pos hP, if_pos hP]
    by_cases hf : pgnum (s.mm.entry d' q) = f
    · -- The frame is mapped at one page, and for writing by one directory.
      have hq' : q = vpn va := h.one d' hd' d hd q (vpn va) hq (low_vpn hva) f ⟨hP, hf⟩ hmap
      have hd'' : d' = d := by
        by_contra hne
        have hro :=
          hun d hd d' hd' hne (vpn va) (low_vpn hva) hmap.1 (by rw [hmap.2, ← hq']; exact ⟨hP, hf⟩)
        rw [hw] at hro
        exact nomatch hro
      by_cases ho : o = pgoff va
      · rw [if_pos ⟨hf, ho⟩, if_pos ⟨hd'', hq', ho⟩]
      · rw [if_neg fun hc => ho hc.2, if_neg fun hc => ho hc.2.2]
    · rw [if_neg fun hc => hf hc.1, if_neg]
      rintro ⟨rfl, rfl, -⟩
      exact hf hmap.2
  · rw [if_neg hP, if_neg hP, if_neg]
    rintro ⟨rfl, rfl, -⟩
    exact hP hmap.1

/-- **What `memcpy` and `memset` leave behind.** -/
structure Filled (s s' : Vm) (D K : Finset ℕ) (l : List ℕ) (d : ℕ) (va : BitVec 32)
    (src : ℕ → BitVec 8) (n : ℕ) : Prop where
  inv : VmInv s' D K l
  keeps : Keeps s s' K
  entry : ∀ d' ∈ D, ∀ q, q / 1024 < pdx uTop → s'.mm.entry d' q = s.mm.entry d' q
  cell : Unshared s.mm D → ∀ d' ∈ D, ∀ q, q / 1024 < pdx uTop → ∀ o, s'.mm.cell d' q o =
    if d' = d ∧ o < 4096 ∧ va.toNat ≤ q * 4096 + o ∧ q * 4096 + o < va.toNat + n then
      some (src (q * 4096 + o - va.toNat))
    else s.mm.cell d' q o

theorem Filled.refl (h : VmInv s D K l) (d : ℕ) (va : BitVec 32) (src : ℕ → BitVec 8) :
    Filled s s D K l d va src 0 := by
  refine ⟨h, Keeps.refl s K, fun _ _ _ _ => rfl, fun _ d' _ q _ o => ?_⟩
  rw [if_neg (by omega)]

/-- **`memcpy` and `memset`** at addresses of the environment. -/
theorem kernelFill (h : VmInv s D K l) (hdir : s.pgdir e = some d) {src : ℕ → BitVec 8} {n : ℕ}
    (hend : va.toNat + n ≤ uTop.toNat) :
    Ends (fun _ => True) (fun s' => Filled s s' D K l d va src n) (kernelFill s e va src n) := by
  have hd : d ∈ D := h.dir e d hdir
  rw [Jos.kernelFill, List.range_eq_range']
  refine ends_foldlM_range' (P := fun k s' => Filled s s' D K l d va src k) ?_ ?_
  · exact Filled.refl h d va src
  · rintro k hk s₁ ⟨hinv₁, hk₁, he₁, hc₁⟩
    have hU : uTop.toNat = 4005560320 := rfl
    have hnat : (va + BitVec.ofNat 32 k).toNat = va.toNat + k := by
      rw [BitVec.toNat_add, BitVec.toNat_ofNat]
      omega
    have hlt : va + BitVec.ofNat 32 k < uTop := by
      rw [BitVec.lt_def, hnat]
      omega
    rw [Nat.zero_add, kernelStore]
    rcases hinv₁.mmu_cases ((hk₁.pgdir e).trans hdir) hlt false true
      with ⟨hm, -⟩ | ⟨hm, -⟩ | ⟨hm, hP, hal⟩
    · rw [hm]
      exact True.intro
    · rw [hm]
      exact True.intro
    · rw [hm]
      obtain ⟨hinv₂, hk₂, he₂⟩ :=
        hinv₁.setByte (o := pgoff (va + BitVec.ofNat 32 k)) (b := src k) hd hlt ⟨hP, rfl⟩
      refine ⟨hinv₂, hk₁.trans hk₂, fun d' hd' q hq => (he₂ d' hd' q hq).trans (he₁ d' hd' q hq),
        fun hun d' hd' q hq o => ?_⟩
      have hw : isWritable (s₁.mm.entry d (vpn (va + BitVec.ofNat 32 k))) = true :=
        (Bool.and_eq_true .. ▸ hal).2
      rw [hinv₁.setByte_cell (hun.congr he₁) hd hlt ⟨hP, rfl⟩ hw d' hd' q hq o,
        hc₁ hun d' hd' q hq o]
      have haddr : (q = vpn (va + BitVec.ofNat 32 k) ∧ o = pgoff (va + BitVec.ofNat 32 k)) ↔
          o < 4096 ∧ q * 4096 + o = va.toNat + k := by
        rw [vpn, pgoff_eq, hnat]
        omega
      by_cases hdd : d' = d
      · by_cases hhere : o < 4096 ∧ q * 4096 + o = va.toNat + k
        · rw [if_pos ⟨hdd, haddr.2 hhere⟩, if_pos ⟨hdd, by omega, by omega, by omega⟩, hhere.2,
            Nat.add_sub_cancel_left]
        · rw [if_neg fun hc => hhere (haddr.1 hc.2)]
          by_cases hin : o < 4096 ∧ va.toNat ≤ q * 4096 + o ∧ q * 4096 + o < va.toNat + k
          · rw [if_pos ⟨hdd, hin⟩, if_pos ⟨hdd, by omega, by omega, by omega⟩]
          · rw [if_neg fun hc => hin hc.2, if_neg]
            omega
      · rw [if_neg fun hc => hdd hc.1, if_neg fun hc => hdd hc.1, if_neg fun hc => hdd hc.1]

/-- It concerns the pages in which bytes are written. -/
theorem Filled.served {s s' : Vm} {src : ℕ → BitVec 8} {n : ℕ} {P : ℕ → Prop}
    (h : Filled s s' D K l d va src n) (hun : Unshared s.mm D)
    (hP : ∀ q o, o < 4096 → va.toNat ≤ q * 4096 + o → q * 4096 + o < va.toNat + n → P q) :
    Served s s' D K l d P := by
  refine ⟨h.inv, h.keeps, Aside.of_cells (fun d' hd q hq _ => h.entry d' hd q hq)
    fun d' hd q hq hn o => ?_,
    fun hun => hun.congr h.entry⟩
  rw [h.cell hun d' hd q hq o, if_neg]
  rintro ⟨rfl, ho, h₁, h₂⟩
  exact hn ⟨rfl, hP q o ho h₁ h₂⟩

/-! ### The permissions of pages -/

/-- **What `vma_change_perm` leaves behind** on the pages `q` with `P q`, which are all present. -/
structure Repermitted (s s' : Vm) (D K : Finset ℕ) (l' : List ℕ) (d : ℕ) (P : ℕ → Prop)
    (perm : BitVec 32) : Prop extends
    Served s s' D K l' d P where
  entry_in : ∀ q, q / 1024 < pdx uTop → P q →
    s'.mm.entry d q = insertPte (pgnum (s.mm.entry d q)) perm
  cell_in : ∀ q, q / 1024 < pdx uTop → P q → ∀ o, s'.mm.cell d q o = s.mm.cell d q o

/-- **One round of `vma_change_perm`.** -/
theorem changePermRound (h : VmInv s D K l) (hdir : s.pgdir e = some d) (hperm : CleanPerm perm)
    (hro : isWritable perm = false) (hva : va < uTop)
    (hP : isPresent (s.mm.entry d (vpn va)) = true) :
    ∃ t pg, pgdirFind s (s.pgdir e) va = .ok (some ⟨t, ptx va⟩) ∧
      isPresent (s.pte ⟨t, ptx va⟩) = true ∧
      pageLookup s (s.pgdir e) va = .ok (some pg) ∧
        Ends (fun _ => True) (fun r => ∃ l', Repermitted s r.2 D K l' d (· = vpn va) perm)
          (pageInsert s (s.pgdir e) (some pg) va perm) := by
  have hd : d ∈ D := h.dir e d hdir
  have hlow := low_vpn hva
  rcases h.pt.entry_cases hd hlow with ⟨-, hz⟩ | ⟨t, ht, hw⟩
  · rw [hz] at hP
    exact absurd hP (by decide)
  rw [← pdx_eq] at ht
  rw [← ptx_eq] at hw
  have hsmall := h.pt.small d hd _ ht.2.1 ht.2.2.1
  have htlt := (h.pt.table _ _ _ ht).1.1
  obtain ⟨hheld, hplain⟩ := h.held_of_present hd hlow hP
  have hmap : Maps (s.mm.entry d (vpn va)) (pgnum (s.mm.entry d (vpn va))) := ⟨hP, rfl⟩
  refine ⟨t, pgnum (s.mm.entry d (vpn va)), ?_, ?_, ?_, ?_⟩
  · rw [hdir]
    exact pgdirFind_table ht.2.2 hsmall htlt
  · change isPresent (s.mm.word t (ptx va)) = true
    rw [← hw]
    exact hP
  · rw [hdir]
    exact pageLookup_table ht.2.2 hsmall htlt (by rw [hw]) hheld.1
  · rw [hdir]
    refine ((h.inserted hd hva hheld hplain (h.onlyAt_of_mapped hd hlow hmap) hperm).and
      (pageInsert_true ht.2.2 hsmall htlt hperm.not_huge)).mono (fun _ _ => True.intro) ?_
    rintro ⟨ok, s'⟩ ⟨⟨heq, -⟩ | ⟨-, l', hinv, hins⟩, hok⟩
    · rw [heq] at hok
      exact nomatch hok
    · have hinv : VmInv s' D K l' := hinv
      have hins : Inserted s s' D K l l' d (pgnum (s.mm.entry d (vpn va))) va perm := hins
      have hmap' := insertPte_maps hheld.lt_pow hperm.lt
      refine ⟨l', ⟨hinv, .ofSpaces hins.space hins.npages fun f hf => hins.refs f (Or.inr hf),
        hins.aside h hinv, fun hun => ?_⟩,
        fun q _ hq => ?_, fun q _ hq o => ?_⟩
      · refine hins.unshared h hun hheld.lt_pow hperm.lt fun d' hd' hne hm => ⟨hro, ?_⟩
        refine hun d' hd' d hd (Ne.symm hne) _ hlow hm.1 ?_
        rw [hm.2]
        exact hmap
      · rw [hq]
        exact hins.entry
      · subst hq
        refine Mm.cell_congr ?_ fun _ => ?_
        · rw [hins.entry, hmap'.1, hP]
        · rw [hins.entry, hmap'.2]
          refine hins.mem _ hheld hplain ?_
          have hheld' := (hinv.held_of_present hd hlow (by rw [hins.entry]; exact hmap'.1)).1
          rw [hins.entry, hmap'.2] at hheld'
          exact hheld'

/-- **The loop of `vma_change_perm`** over pages of an area, from the page `i` on. -/
theorem changePermLoop {v : Vma} (hok : AreaOk v) (hperm : CleanPerm perm)
    (hro : isWritable perm = false) :
    ∀ (n i : ℕ) (s : Vm) (l : List ℕ), VmInv s D K l → s.pgdir e = some d →
      i + n = v.len.toNat / 4096 →
      (∀ q, v.HasPage q → isPresent (s.mm.entry d q) = true) →
      Ends (fun _ => True) (fun s' => ∃ l', Repermitted s s' D K l' d
        (fun q => v.HasPage q ∧ vpn v.va + i ≤ q) perm)
        (changePermFrom e v.va perm n i s) := by
  intro n
  induction n with
  | zero =>
      intro i s l h _ hn _
      refine ⟨l, Served.refl h, fun q _ hq => ?_, fun _ _ _ _ => rfl⟩
      have hlt := ((hasPage_iff_index hok).1 hq.1).2
      omega
  | succ n ih =>
      intro i s l h hdir hn hall
      have hd : d ∈ D := h.dir e d hdir
      obtain ⟨hva, hvpn⟩ := pageAt_low hok (i := i) (by omega)
      have hin : v.HasPage (vpn v.va + i) := (hasPage_iff_index hok).2 (by omega)
      obtain ⟨t, pg, hfind, hP, hlook, hins⟩ :=
        h.changePermRound hdir hperm hro hva (by rw [hvpn]; exact hall _ hin)
      rw [changePermFrom, hfind, ends_bind, ends_ok]
      dsimp only
      rw [if_pos hP, hlook, ends_bind, ends_ok]
      dsimp only
      rw [ends_bind]
      refine hins.post ?_
      rintro ⟨ok, s₁⟩ ⟨l₁, h₁⟩
      have h₁ : Repermitted s s₁ D K l₁ d (· = vpn (pageAt v.va i)) perm := h₁
      rw [hvpn] at h₁
      have hmap : ∀ q, v.HasPage q → q ≠ vpn v.va + i → s₁.mm.entry d q = s.mm.entry d q :=
        fun q hq hne =>
        h₁.aside.entry d hd q (hok.page_low hq) fun hc => hne hc.2
      have hlow := hok.page_low hin
      have hnew := h₁.entry_in _ hlow rfl
      have hpres : ∀ q, v.HasPage q → isPresent (s₁.mm.entry d q) = true := by
        intro q hq
        by_cases hqi : q = vpn v.va + i
        · rw [hqi, hnew]
          exact (insertPte_maps (pgnum_lt _) hperm.lt).1
        · rw [hmap q hq hqi]
          exact hall q hq
      refine (ih (i + 1) s₁ l₁ h₁.inv ((h₁.keeps.pgdir e).trans hdir) (by omega) hpres).post ?_
      rintro s₂ ⟨l₂, h₂⟩
      refine ⟨l₂, (h₁.toServed.mono fun q hq => ⟨hq.symm ▸ hin, by omega⟩).trans
        (h₂.toServed.mono fun q hq => ⟨hq.1, by omega⟩), fun q hq hPq => ?_, fun q hq hPq o => ?_⟩
      · by_cases hqi : q = vpn v.va + i
        · subst hqi
          rw [h₂.aside.entry d hd _ hq fun hc => by omega, hnew]
        · rw [h₂.entry_in q hq ⟨hPq.1, by omega⟩, hmap q hPq.1 hqi]
      · by_cases hqi : q = vpn v.va + i
        · subst hqi
          rw [h₂.aside.cell hd hq (fun hc => by omega) o, h₁.cell_in _ hq rfl o]
        · rw [h₂.cell_in q hq ⟨hPq.1, by omega⟩ o, h₁.aside.cell hd hq (fun hc => hqi hc.2) o]

/-- **`vma_change_perm`** of an area with the permission that it has. -/
theorem changePermSame (h : VmInv s D K l) (hdir : s.pgdir e = some d) {i : ℕ}
    (hok : AreaOk (s.vma e i)) (hro : isWritable (s.vma e i).perm = false)
    (hall : ∀ q, (s.vma e i).HasPage q → isPresent (s.mm.entry d q) = true) :
    Ends (fun _ => True) (fun s' => ∃ l', Repermitted s s' D K l' d (s.vma e i).HasPage
      (s.vma e i).perm)
      (vmaChangePerm s e i (s.vma e i).perm) := by
  have hsame : (s.modSpace e fun sp => sp.modVma i fun v => { v with perm := (s.vma e i).perm }) =
      s := by
    exact Vm.modSpace_eq_self (Space.modVma_eq_self rfl)
  rw [vmaChangePerm, hsame, pageCount_of_page hok.page.2]
  refine (changePermLoop hok hok.perm hro _ 0 s l h hdir (Nat.zero_add _) hall).post ?_
  rintro s' ⟨l', hr⟩
  refine ⟨l', hr.toServed.mono fun q hq => hq.1, fun q hq hP => hr.entry_in q hq ⟨hP, ?_⟩,
    fun q hq hP => hr.cell_in q hq ⟨hP, ?_⟩⟩
  all_goals exact ((hasPage_iff_index hok).1 hP).1

/-! ### The pages of the program -/

/-- **What the loading of the program leaves behind** in the pages of the area `v`. -/
structure Loaded (s s' : Vm) (D K : Finset ℕ) (l' : List ℕ) (d : ℕ) (v : Vma) : Prop where
  inv : VmInv s' D K l'
  keeps : Keeps s s' K
  entry : ∀ q, v.HasPage q → isPresent (s'.mm.entry d q) = true ∧
    isUser (s'.mm.entry d q) = isUser v.perm
  served : Unshared s.mm D → Served s s' D K l' d v.HasPage
  program : Unshared s.mm D → ∀ q, q / 1024 < pdx uTop → ∀ o < 4096, ∀ k < v.srcSz.toNat,
    q * 4096 + o = v.va.toNat + v.cpyDst.toNat + k →
      s'.mm.cell d q o = some (s.image (v.cpySrc + BitVec.ofNat 32 k))
  rest : Unshared s.mm D → v.perm ≠ 0 → ∀ q, v.HasPage q → ∀ o < 4096,
    v.va.toNat + v.cpyDst.toNat + v.srcSz.toNat ≤ q * 4096 + o → s'.mm.cell d q o = some 0

/-- The addresses of a page of an area. -/
theorem hasPage_iff_addr {v : Vma} (hok : AreaOk v) {q o : ℕ} (ho : o < 4096) :
    v.HasPage q ↔ v.va.toNat ≤ q * 4096 + o ∧ q * 4096 + o < v.va.toNat + v.len.toNat := by
  have hpage := hok.page
  rw [hasPage_iff_index hok, vpn]
  omega

/-- The permissions of the pages are set at the end. -/
theorem Loaded.repermitted {s s' s'' : Vm} {l' l'' : List ℕ} {v : Vma} (h : Loaded s s' D K l' d v)
    (hd : d ∈ D) (hok : AreaOk v) (h' : Repermitted s' s'' D K l'' d v.HasPage v.perm) :
    Loaded s s'' D K l'' d v := by
  have hcell : ∀ q, q / 1024 < pdx uTop → ∀ o, s''.mm.cell d q o = s'.mm.cell d q o := by
    intro q hq o
    by_cases hP : v.HasPage q
    · exact h'.cell_in q hq hP o
    · exact h'.aside.cell hd hq (fun hc => hP hc.2) o
  refine ⟨h'.inv, h.keeps.trans h'.keeps, fun q hq => ?_,
    fun hun => (h.served hun).trans h'.toServed,
    fun hun q hq o ho k hk hat => ?_, fun hun hperm q hq o ho hat => ?_⟩
  · rw [h'.entry_in q (hok.page_low hq) hq]
    exact ⟨insertPte_isPresent .., insertPte_isUser ..⟩
  · rw [hcell q hq]
    exact h.program hun q hq o ho k hk hat
  · rw [hcell q (hok.page_low hq)]
    exact h.rest hun hperm q hq o ho hat

/-- **The program is loaded** by `alloc_page_after_fault`. -/
theorem loadBinary (h : VmInv s D K l) (hdir : s.pgdir e = some d) {i : ℕ}
    (hok : AreaOk (s.vma e i)) (hbin : (s.vma e i).type = .binary) :
    Ends (fun _ => True) (fun s' => ∃ l', Loaded s s' D K l' d (s.vma e i)) (loadBinary s e i) := by
  obtain ⟨v, hv⟩ : ∃ v, s.vma e i = v := ⟨_, rfl⟩
  rw [hv] at hok hbin ⊢
  have hd : d ∈ D := h.dir e d hdir
  have hfits := hok.fits hbin
  have hlow := hok.low
  have hU : uTop.toNat = 4005560320 := rfl
  have hW : CleanPerm (v.perm ||| pteW) := hok.perm.or (by decide)
  rw [Jos.loadBinary, hv]
  dsimp only
  rw [ends_bind]
  refine (h.regionAlloc hdir hW hok).post ?_
  rintro s₁ ⟨l₁, hs₁, he₁⟩
  have hflags : ∀ q, v.HasPage q → isPresent (s₁.mm.entry d q) = true ∧
      isUser (s₁.mm.entry d q) = isUser v.perm := by
    intro q hq
    obtain ⟨pp, hpp⟩ := he₁ q hq
    rw [hpp]
    exact ⟨insertPte_isPresent .., (insertPte_isUser ..).trans (isUser_or_pteW _)⟩
  have hsum : (v.va + v.cpyDst).toNat = v.va.toNat + v.cpyDst.toNat := by
    rw [BitVec.toNat_add]
    omega
  rw [ends_bind]
  refine (hs₁.inv.kernelFill ((hs₁.keeps.pgdir e).trans hdir) (by omega)).post ?_
  intro s₂ h₂
  -- The rest of the area is zeroed, unless nobody may read it.
  have hsum' : (v.va + v.cpyDst + v.srcSz).toNat = v.va.toNat + v.cpyDst.toNat + v.srcSz.toNat := by
    rw [BitVec.toNat_add, hsum]
    omega
  have hlen : (v.len - v.srcSz - v.cpyDst).toNat = v.len.toNat - v.srcSz.toNat -
    v.cpyDst.toNat := by
    have hlt := v.len.isLt
    rw [BitVec.toNat_sub, BitVec.toNat_sub]
    omega
  obtain ⟨n, hn⟩ : ∃ n, n = if v.srcSz ≠ v.len ∧ v.perm ≠ 0 then (v.len - v.srcSz - v.cpyDst).toNat
      else 0 := ⟨_, rfl⟩
  have hrest : Ends (fun _ => True)
      (fun s₃ => Filled s₂ s₃ D K l₁ d (v.va + v.cpyDst + v.srcSz) (fun _ => 0) n)
      (if v.srcSz ≠ v.len ∧ v.perm ≠ 0 then
        Jos.kernelFill s₂ e (v.va + v.cpyDst + v.srcSz) (fun _ => 0)
          (v.len - v.srcSz - v.cpyDst).toNat
      else pure s₂) := by
    refine ends_ite (fun hc => ?_) fun hc => ?_
    · rw [if_pos hc] at hn
      rw [hn]
      exact h₂.inv.kernelFill ((h₂.keeps.pgdir e).trans ((hs₁.keeps.pgdir e).trans hdir)) (by omega)
    · rw [if_neg hc] at hn
      rw [hn]
      exact Filled.refl h₂.inv d _ _
  refine Ends.ite_bind (hrest.post fun s₃ h₃ => ?_)
  have hk₃ : Keeps s s₃ K := (hs₁.keeps.trans h₂.keeps).trans h₃.keeps
  have hdir₃ : s₃.pgdir e = some d := (hk₃.pgdir e).trans hdir
  have hv₃ : s₃.vma e i = v := (hk₃.vma e i).trans hv
  have hentry : ∀ q, v.HasPage q → s₃.mm.entry d q = s₁.mm.entry d q := fun q hq =>
    (h₃.entry d hd q (hok.page_low hq)).trans (h₂.entry d hd q (hok.page_low hq))
  have hn' : n ≤ v.len.toNat - v.srcSz.toNat - v.cpyDst.toNat := by
    rw [hn, ← hlen]
    split
    · exact le_rfl
    · exact Nat.zero_le _
  have hloaded : Loaded s s₃ D K l₁ d v := by
    refine ⟨h₃.inv, hk₃, fun q hq => by rw [hentry q hq]; exact hflags q hq, fun hun => ?_,
      fun hun q hq o ho k hk hat => ?_,
      fun hun hperm q hq o ho hat => ?_⟩
    · have hun₁ := hs₁.unshared hun
      refine (hs₁.trans (h₂.served hun₁ fun q o ho h₁ h₂ => ?_)).trans
        (h₃.served (hun₁.congr h₂.entry) fun q o ho h₁ h₂ => ?_)
      · exact (hasPage_iff_addr hok ho).2 (by omega)
      · exact (hasPage_iff_addr hok ho).2 (by omega)
    · have hun₁ := hs₁.unshared hun
      rw [h₃.cell (hun₁.congr h₂.entry) d hd q hq o, if_neg (by omega), h₂.cell hun₁ d hd q hq o,
        if_pos ⟨rfl, ho, by omega, by omega⟩, hs₁.keeps.image, hat, hsum, Nat.add_sub_cancel_left]
    · have hun₁ := hs₁.unshared hun
      have hin := (hasPage_iff_addr hok ho).1 hq
      have hne : v.srcSz ≠ v.len := by
        intro heq
        rw [heq] at hat
        omega
      rw [if_pos ⟨hne, hperm⟩, hlen] at hn
      rw [h₃.cell (hun₁.congr h₂.entry) d hd q (hok.page_low hq) o,
        if_pos ⟨rfl, ho, by omega, by omega⟩]
  refine ends_ite (fun hro => ?_) fun _ => ⟨l₁, hloaded⟩
  have hro : isWritable v.perm = false := Bool.eq_false_of_not_eq_true hro
  have hchange := @changePermSame s₃ D K l₁ e d hloaded.inv hdir₃
    i (by rw [hv₃]; exact hok) (by rw [hv₃]; exact hro)
    (by rw [hv₃]; exact fun q hq => (hloaded.entry q hq).1)
  rw [hv₃] at hchange
  refine hchange.post ?_
  rintro s₄ ⟨l₄, h₄⟩
  exact ⟨l₄, hloaded.repermitted hd hok h₄⟩

/-! ### New pages -/

/-- **A page of zeros** at the address. -/
structure Zeroed (s s' : Vm) (D K : Finset ℕ) (l' : List ℕ) (d : ℕ) (va perm : BitVec 32) :
    Prop extends
    Served s s' D K l' d (· = vpn va) where
  entry_in : ∃ pp, s'.mm.entry d (vpn va) = insertPte pp perm
  cell_in : ∀ o, s'.mm.cell d (vpn va) o = some 0

/-- **What remains of an environment that has been destroyed.** -/
structure Freed (s s' : Vm) (D K : Finset ℕ) (l' : List ℕ) (e d : ℕ) : Prop where
  inv : VmInv s' (D.erase d) K l'
  npages : s'.mm.npages = s.mm.npages
  pgdir : ∀ e', s'.pgdir e' = if e' = e then none else s.pgdir e'
  refs : ∀ f ∈ K, s'.ref f = if f = s.envFrame e then s.ref f - 1 else s.ref f
  envFrame : s'.envFrame = s.envFrame
  lists : ∀ e' ≠ e, (s'.envs e').lists = (s.envs e').lists
  image : s'.image = s.image
  aside : Aside s s' D d fun _ => True

/-- **`kill_env`**, when the frame of the slot does not lose its last reference. -/
theorem kill (h : VmInv s D K l) (hdir : s.pgdir e = some d) :
    Ends (fun _ => True) (fun r => r.1 = .killed ∧
      (s.ref (s.envFrame e) ≠ 1 → ∃ l', Freed s r.2 D K l' e d)) (killEnv s e) := by
  rw [killEnv, ends_bind]
  by_cases hslot : s.ref (s.envFrame e) = 1
  · exact Ends.of_forall (fun s' => ⟨rfl, fun hc => absurd hslot hc⟩) _
  refine (h.release hdir hslot).post ?_
  rintro s' ⟨l', hr⟩
  refine ⟨rfl, fun _ => ⟨l', hr.inv, hr.npages, fun e' => ?_, hr.refs, hr.envFrame, fun e' he => ?_,
    hr.image, hr.aside⟩⟩
  · rw [Vm.pgdir, hr.envs]
    by_cases he : e' = e
    · rw [if_pos he, he, Vm.modSpace_self]
      rfl
    · rw [if_neg he, Vm.modSpace_of_ne s _ he]
      rfl
  · rw [hr.envs, Vm.modSpace_of_ne s _ he]

/-- **A page of zeros is allocated** by `alloc_page_after_fault`, or the environment is
destroyed. -/
theorem allocAnon (h : VmInv s D K l) (hdir : s.pgdir e = some d) {i : ℕ} (hok : AreaOk (s.vma e i))
    (hva : va < uTop) :
    Ends (fun _ => True)
      (fun r => (r.1 = .resumed ∧ ∃ l', Zeroed s r.2 D K l' d va (s.vma e i).perm) ∨
        (r.1 = .killed ∧ NoTable s e va ∧ (s.ref (s.envFrame e) ≠ 1 →
          ∃ l', Freed s r.2 D K l' e d))) (allocAnon s e i va) := by
  have hd : d ∈ D := h.dir e d hdir
  have hreq : (if (s.vma e i).hps = true then allocZero ||| allocHuge else allocZero) =
    allocZero := by
    rw [hok.small]
    rfl
  rw [Jos.allocAnon, ends_bind, hreq]
  refine (h.allocFrame d (by decide) (by decide)).post ?_
  rintro ⟨r, m⟩ (⟨heq, -⟩ | ⟨pp, hpp, hr, htook, hzero⟩)
  · obtain ⟨rfl, rfl⟩ := Prod.mk.injEq .. ▸ heq
    dsimp only
    rw [hdir]
    exact True.intro
  obtain rfl : r = some pp := hr
  have htook : TookFrame s { s with mm := m } D K (l.erase pp) d pp := htook
  have hzero : m.mem pp = fun _ => 0 := hzero (by decide)
  -- The page is counted, and is put on the list unless it is the stack.
  obtain ⟨s₁, hs₁⟩ : ∃ s₁, s₁ = if (s.vma e i).hps = true then
      Jos.addPages { s with mm := m } e 1024
      else if roundDown va (BitVec.ofNat 32 pgSize) ≠ uStackTop - BitVec.ofNat 32 pgSize then
        Jos.addPages { s with mm := lruHaInsert m pp } e 1
      else Jos.addPages { s with mm := m } e 1 := ⟨_, rfl⟩
  have htook₁ : TookFrame s s₁ D K (l.erase pp) d pp ∧ s₁.mm.mem = m.mem := by
    rw [hs₁, if_neg (by rw [hok.small]; exact Bool.false_ne_true)]
    split
    · exact ⟨htook.lru.addPages e 1, (lruHaInsert_lruOnly m pp).mem⟩
    · exact ⟨htook.addPages e 1, rfl⟩
  have hdir₁ : s₁.pgdir e = some d := (htook₁.1.keeps.pgdir e).trans hdir
  dsimp only
  rw [← hs₁, hdir₁, ends_bind]
  refine (insertFresh htook₁.1 hd hva hok.perm).post ?_
  rintro ⟨ok, s₂⟩ (⟨heq, hnil, habs⟩ | ⟨hr, l₂, hserved, hentry, hmem⟩)
  · obtain ⟨rfl, rfl⟩ := Prod.mk.injEq .. ▸ heq
    have hk := htook₁.1.keeps
    have hframe := (h.slots e).1
    refine (htook₁.1.inv.kill hdir₁).post ?_
    rintro r ⟨hr, hkill⟩
    rw [hk.envFrame, hk.refs _ hframe] at hkill
    have hlast : NoTable s e va := ⟨⟨pp, h.pt.free.last hpp hnil⟩, d, hdir, habs⟩
    refine Or.inr ⟨hr, hlast, fun hslot => ?_⟩
    obtain ⟨l', hfreed⟩ := hkill hslot
    refine ⟨l', hfreed.inv, hfreed.npages.trans hk.npages, fun e' => ?_, fun f hf => ?_,
      hfreed.envFrame.trans hk.envFrame,
      fun e' he => (hfreed.lists e' he).trans (hk.lists e'), hfreed.image.trans hk.image,
      (htook₁.1.aside.mono fun _ hf => hf.elim).trans hfreed.aside⟩
    · rw [hfreed.pgdir, hk.pgdir]
    · rw [hfreed.refs f hf, hk.envFrame, hk.refs f hf]
  · obtain rfl : ok = true := hr
    have hserved : Served s s₂ D K l₂ d (· = vpn va) := hserved
    have hentry : s₂.mm.entry d (vpn va) = insertPte pp (s.vma e i).perm := hentry
    have hmem : s₂.mm.mem pp = s₁.mm.mem pp := hmem
    refine Or.inl ⟨rfl, l₂, hserved, ⟨pp, hentry⟩, fun o => ?_⟩
    have hmap := insertPte_maps htook.held.lt_pow hok.perm.lt
    rw [Mm.cell_of_maps (f := pp) (by rw [hentry]; exact hmap), hmem, htook₁.2, hzero]

/-! ### The handler -/

/-- **How the handler ends**, for an environment with the areas `la`. -/
inductive FaultOutcome (s : Vm) (r : FaultEnd × Vm) (D K : Finset ℕ) (l : List ℕ) (e d : ℕ)
    (va : BitVec 32) (la : List ℕ)
    (prot : Bool) : Prop
  /-- The program has been loaded. -/
  | loaded (i : ℕ) (l' : List ℕ) (hi : i ∈ la) (hcov : (s.vma e i).covers va = true)
    (hbin : (s.vma e i).type = .binary)
      (hprot : prot = false) (hend : r.1 = .resumed) (h : Loaded s r.2 D K l' d (s.vma e i))
  /-- The environment has got a page of zeros. -/
  | zeroed (i : ℕ) (l' : List ℕ) (hi : i ∈ la) (hcov : (s.vma e i).covers va = true)
    (hanon : (s.vma e i).type ≠ .binary)
      (hprot : prot = false) (hend : r.1 = .resumed) (h : Zeroed s r.2 D K l' d va (s.vma e i).perm)
  /-- The page is its own now. -/
  | deduped (i : ℕ) (l' : List ℕ) (w : BitVec 32) (hi : i ∈ la)
    (hcov : (s.vma e i).covers va = true)
      (hw : isWritable (s.vma e i).perm = true) (hend : r.1 = .resumed)
        (hP : isPresent (s.mm.entry d (vpn va)) = true)
      (h : Deduped s r.2 D K l' d va w)
      (hnew : w = s.mm.entry d (vpn va) ||| pteW ∨
        ∃ j ∈ la, (s.vma e j).covers va = true ∧ ∃ pgn, w = insertPte pgn (s.vma e j).perm)
  /-- There is no frame for a copy, and a reference has been lost. -/
  | failed (hend : r.1 = .dedupFailed) (hl : l = []) (hP : isPresent (s.mm.entry d (vpn va)) = true)
      (href : s.ref (pgnum (s.mm.entry d (vpn va))) ≠ 1)
  | killed (l' : List ℕ) (hend : r.1 = .killed) (h : Freed s r.2 D K l' e d)
  | asleep (hr : r = (.asleep, s))

/-- The handler ends in one of these ways, unless it destroys the environment and with it the last
reference of the slot's frame. -/
def FaultEnds (s : Vm) (r : FaultEnd × Vm) (D K : Finset ℕ) (l : List ℕ) (e d : ℕ) (va : BitVec 32)
    (la : List ℕ) (prot : Bool) :
    Prop :=
  (FaultKills s e va prot → s.ref (s.envFrame e) ≠ 1) → FaultOutcome s r D K l e d va la prot

theorem faultEnds_of_kill {r : FaultEnd × Vm} {la : List ℕ} {prot : Bool}
    (hkills : FaultKills s e va prot) (hend : r.1 = .killed)
    (hkill : s.ref (s.envFrame e) ≠ 1 → ∃ l', Freed s r.2 D K l' e d) :
    FaultEnds s r D K l e d va la prot := by
  intro hslot
  obtain ⟨l', hfreed⟩ := hkill (hslot hkills)
  exact .killed l' hend hfreed

/-- **`alloc_page_after_fault`.** -/
theorem allocPageAfterFault (h : VmInv s D K l) (hdir : s.pgdir e = some d) {la lf : List ℕ}
    (har : Areas (s.envs e) la lf) :
    Ends (fun _ => True) (fun r => FaultEnds s r D K l e d va la false)
      (Jos.allocPageAfterFault s e va) := by
  obtain ⟨v, hlookup, hv⟩ := (har.vmaLookup va).exists_ok fun _ => id
  rw [Jos.allocPageAfterFault, hlookup, ends_bind, ends_ok]
  rcases hv with ⟨rfl, -⟩ | ⟨i, hi, rfl, hcov⟩
  · exact (h.kill hdir).post fun r hr => faultEnds_of_kill (Or.inl hlookup) hr.1 hr.2
  · have hok : AreaOk (s.vma e i) := har.ok i
    dsimp only
    refine ends_ite (fun hbin => ?_) fun hanon => ?_
    · rw [ends_bind]
      refine (h.loadBinary hdir hok hbin).post ?_
      rintro s' ⟨l', hloaded⟩ -
      exact .loaded i l' hi hcov hbin rfl rfl hloaded
    · refine (h.allocAnon hdir hok (hok.lt hcov)).post ?_
      rintro r (⟨hend, l', hzeroed⟩ | ⟨hend, htable, hkill⟩)
      · exact fun _ => .zeroed i l' hi hcov hanon rfl hend hzeroed
      · exact faultEnds_of_kill (Or.inr ⟨i, hlookup, hanon, htable⟩) hend hkill

/-- **`page_fault_handler`** after a fault on the address. -/
theorem fault (h : VmInv s D K l) (hdir : s.pgdir e = some d) {la lf : List ℕ}
    (har : Areas (s.envs e) la lf) (user prot : Bool)
    (hprot : prot = true → va < uTop → isPresent (s.mm.entry d (vpn va)) = true) :
    Ends (fun _ => True) (fun r => FaultEnds s r D K l e d va la prot)
      (s.pageFaultHandler e va user prot) := by
  have halloc : ¬ prot → Ends (fun _ => True) (fun r => FaultEnds s r D K l e d va la prot)
      (Jos.allocPageAfterFault s e va) := by
    intro hp
    rw [Bool.not_eq_true] at hp
    rw [hp]
    exact h.allocPageAfterFault hdir har
  unfold Vm.pageFaultHandler
  refine ends_ite (fun _ => True.intro) fun _ => ?_
  refine ends_ite (fun hp => ?_) fun _ => ?_
  · exact halloc hp.2
  rw [ends_bind]
  refine Ends.of_forall (fun pte => ?_) _
  refine ends_ite (fun _ _ => .asleep rfl) fun _ => ends_ite halloc fun hp => ?_
  have hp : prot = true := by simpa using hp
  obtain ⟨v, hlookup, hv⟩ := (har.vmaLookup va).exists_ok fun _ => id
  rw [hlookup, ends_bind, ends_ok]
  rcases hv with ⟨rfl, -⟩ | ⟨i, hi, rfl, hcov⟩
  · exact (h.kill hdir).post fun r hr => faultEnds_of_kill (Or.inl hlookup) hr.1 hr.2
  · refine ends_ite (fun hw => ?_) fun hro => ?_
    · have hva := (har.ok i).lt hcov
      have hP := hprot hp hva
      rw [ends_bind]
      refine (h.dedup hdir har hva ⟨hP, rfl⟩).post ?_
      rintro ⟨ok, s'⟩ (⟨hok, l', w, hded, hw'⟩ | ⟨hok, hl, href⟩)
      · obtain rfl : ok = true := hok
        exact fun _ => .deduped i l' w hi hcov hw rfl hP hded (hw'.imp_left And.right)
      · obtain rfl : ok = false := hok
        exact fun _ => .failed rfl hl hP href
    · have hkills : FaultKills s e va prot := by
        refine Or.inr ⟨i, hlookup, ?_⟩
        rw [if_pos hp]
        exact Bool.eq_false_of_not_eq_true hro
      exact (h.kill hdir).post fun r hr => faultEnds_of_kill hkills hr.1 hr.2

end VmInv

end Jos
