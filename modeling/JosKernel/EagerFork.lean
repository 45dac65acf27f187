/-
**Copy on write does what eager copies would do.**

Seen from user programs an environment has a memory of its own: a fork copies all of it, a store
changes one byte of it, and nothing else changes it. The kernel copies nothing at a fork and makes
pages only when they are asked for, and yet every load returns what that memory has.

Main definitions:

* `Jos.MemOp` — loads, stores, page faults and forks;
* `Jos.MemOp.Step` — one of them, in the kernel and in the hardware;
* `Jos.MemOp.eager` — the same with a copy of the whole memory for each fork.

Main results:

* `Jos.Coherent.store`, `Jos.Coherent.fault`, `Jos.Coherent.dup` — what one of them does;
* `Jos.fork_refines_eager` — **every load returns what it would return after eager copies**.
-/

import JosKernel.KernelFrames
import JosKernel.PageDedup
import JosKernel.UserViews

set_option relaxedAutoImplicit false
set_option autoImplicit false

namespace Jos

open LabelledRun LinkedList Outcome

attribute [local irreducible] paddr vmaProcInit

/-! ### The memory of each environment -/

/-- A store changes one byte of the memory of one environment. -/
def Memory.store (M : Memory) (e : ℕ) (va : BitVec 32) (b : BitVec 8) : Memory :=
  Function.update M e (Function.update (M e) va b)

/-- **An eager fork**: every byte of the parent is copied. -/
def Memory.fork (M : Memory) (parent child : ℕ) : Memory := Function.update M child (M parent)

theorem Memory.store_of_ne (M : Memory) {e e' : ℕ} {va va' : BitVec 32} (b : BitVec 8)
    (h : ¬ (e' = e ∧ va' = va)) :
    M.store e va b e' va' = M e' va' := by
  by_cases he : e' = e
  · subst he
    rw [Memory.store, Function.update_self, Function.update_of_ne fun hc => h ⟨rfl, hc⟩]
  · rw [Memory.store, Function.update_of_ne he]

theorem Memory.store_self (M : Memory) (e : ℕ) (va : BitVec 32) (b : BitVec 8) :
    M.store e va b e va = b := by
  rw [Memory.store, Function.update_self, Function.update_self]

theorem eq_of_vpn_pgoff {a b : BitVec 32} (hv : vpn a = vpn b) (ho : pgoff a = pgoff b) :
    a = b := by
  rw [pgoff_eq, pgoff_eq] at ho
  unfold vpn at hv
  refine BitVec.eq_of_toNat_eq ?_
  omega

namespace Coherent

variable {s s' : Vm} {D K : Finset ℕ} {l l' : List ℕ} {M : Memory} {e d f : ℕ} {va w : BitVec 32}
    {b : BitVec 8}

/-! ### Loads and stores -/

/-- What the hardware finds for an access of a user program. -/
theorem user_frame (h : Coherent s D K l M) (hdir : s.pgdir e = some d) (hva : va < uTop)
    {write : Bool} (hm : mmu s e va true write = .frame f) :
    Maps (s.mm.entry d (vpn va)) f ∧ isUser (s.mm.entry d (vpn va)) = true ∧
      (write = true → isWritable (s.mm.entry d (vpn va)) = true) := by
  rcases h.inv.mmu_cases hdir hva true write with ⟨hc, -⟩ | ⟨hc, -⟩ | ⟨hc, hP, hal⟩
  · rw [hc] at hm
    exact absurd hm (by simp)
  · rw [hc] at hm
    exact absurd hm (by simp)
  · rw [hc] at hm
    obtain rfl := Access.frame.inj hm
    have hal := Bool.and_eq_true .. ▸ hal
    refine ⟨⟨hP, rfl⟩, hal.1, fun hw => ?_⟩
    rw [hw] at hal
    exact hal.2

/-- **A load** returns what the memory has. -/
theorem load (h : Coherent s D K l M) (hdir : s.pgdir e = some d) (hva : va < uTop)
    (hm : mmu s e va true false = .frame f) :
    s.byte f (pgoff va) = M e va := by
  obtain ⟨hmap, huser, -⟩ := h.user_frame hdir hva hm
  rw [← h.agrees e d hdir va hva (Or.inl ⟨d, hdir, hmap.1, huser⟩)]
  exact (seen_of_cell hdir (Mm.cell_of_maps hmap)).symm

/-- **A store** changes what one environment finds at one address. -/
theorem store (h : Coherent s D K l M) (hdir : s.pgdir e = some d) (hva : va < uTop)
    (hm : mmu s e va true true = .frame f) :
    Coherent (s.setByte f (pgoff va) b) D K l (M.store e va b) := by
  have hd : d ∈ D := h.inv.dir e d hdir
  obtain ⟨hmap, huser, hw⟩ := h.user_frame hdir hva hm
  obtain ⟨hinv, hkeeps, hentry⟩ := h.inv.setByte (o := pgoff va) (b := b) hd hva hmap
  have hcell := h.inv.setByte_cell (b := b) h.unshared hd hva hmap (hw rfl)
  have hs : Served s (s.setByte f (pgoff va) b) D K l d (· = vpn va) := by
    refine ⟨hinv, hkeeps, .of_cells (fun d' hd' q hq _ => hentry d' hd' q hq)
      fun d' hd' q hq hn o => ?_,
      fun hun => hun.congr hentry⟩
    rw [hcell d' hd' q hq o, if_neg fun hc => hn ⟨hc.1, hc.2.1⟩]
  refine h.served hdir hs (fun va' v ha hl => hl.congr fun q hq => ?_) (fun va' hva' hq hread => ?_)
    fun e' va' hn => ?_
  · rw [hentry d hd q (h.page_low ha hq)]
  · have hmap' : Maps (s.mm.entry d (vpn va')) f := hq.symm ▸ hmap
    have hold : s.seen e va' = s.mm.mem f (pgoff va') := seen_of_cell hdir (Mm.cell_of_maps hmap')
    have hnew := hcell d hd (vpn va') (low_vpn hva') (pgoff va')
    by_cases ho : pgoff va' = pgoff va
    · obtain rfl : va' = va := eq_of_vpn_pgoff hq ho
      rw [if_pos ⟨rfl, rfl, rfl⟩] at hnew
      rw [seen_of_cell ((hkeeps.pgdir e).trans hdir) hnew, Memory.store_self]
    · rw [if_neg fun hc => ho hc.2.2, Mm.cell_of_maps hmap'] at hnew
      have hne : ¬ (e = e ∧ va' = va) := by
        rintro ⟨-, rfl⟩
        exact ho rfl
      rw [seen_of_cell ((hkeeps.pgdir e).trans hdir) hnew, Memory.store_of_ne M b hne, ← hold]
      exact h.agrees e d hdir va' hva' (Or.inl ⟨d, hdir,
        hmap'.1, by rw [show vpn va' = vpn va from hq]; exact huser⟩)
  · refine Memory.store_of_ne M b fun hc => hn ⟨hc.1, ?_⟩
    rw [hc.2]

/-! ### Page faults -/

/-- An area that has a page of an area in use is that area. -/
theorem area_of_page (h : Coherent s D K l M) {la lf : List ℕ} (har : Areas (s.envs e) la lf)
    {v : Vma} (ha : s.areaAt e va = some v) {i q : ℕ} (hi : i ∈ la) (hq : v.HasPage q)
    (hq' : (s.vma e i).HasPage q) : v = (s.vma e i).body := by
  have hva : vpn (BitVec.ofNat 32 (q * 4096)) = q := by
    have hlow := h.page_low ha hq
    rw [pdx_uTop] at hlow
    rw [vpn, BitVec.toNat_ofNat]
    omega
  obtain ⟨⟨j, hj, rfl⟩, -⟩ := har.areaAt_iff.1 ha
  have hcj := (har.ok j).covers_iff_hasPage.2 (hva.symm ▸ hq)
  have hci := (har.ok i).covers_iff_hasPage.2 (hva.symm ▸ hq')
  exact Option.some.inj ((har.areaAt_of_mem hj hcj).symm.trans (har.areaAt_of_mem hi hci))

/-- What an environment finds at an address whose page is not there yet. -/
theorem fresh (h : Coherent s D K l M) (hdir : s.pgdir e = some d) {v : Vma} (hva : va < uTop)
    (habs : isPresent (s.mm.entry d (vpn va)) = false) (ha : s.areaAt e va = some v)
    (huser : isUser v.perm = true) :
    M e va = v.freshByte s.image va := by
  rw [← h.agrees e d hdir va hva (Or.inr ⟨v, ha, huser⟩)]
  exact seen_of_absent hdir habs ha

/-- **A page of zeros** has been allocated. -/
theorem zeroed (h : Coherent s D K l M) (hdir : s.pgdir e = some d) {la lf : List ℕ}
    (har : Areas (s.envs e) la lf) {i : ℕ} (hi : i ∈ la) (hcov : (s.vma e i).covers va = true)
    (hanon : (s.vma e i).type ≠ .binary) (habs : isPresent (s.mm.entry d (vpn va)) = false)
    (hz : VmInv.Zeroed s s' D K l' d va (s.vma e i).perm) : Coherent s' D K l' M := by
  have hd : d ∈ D := h.inv.dir e d hdir
  have hpage := (har.ok i).covers_iff_hasPage.1 hcov
  have hdir' := (hz.keeps.pgdir e).trans hdir
  refine h.served hdir hz.toServed (fun va' v ha hl => ⟨hl.forked, hl.start, fun hbin => ?_⟩)
    (fun va' hva' hq hread => ?_)
    fun _ _ _ => rfl
  · -- no page of a part of the program is concerned
    refine (hl.congr fun q hq => ?_).whole hbin
    rw [hz.aside.entry d hd q (h.page_low ha hq)]
    rintro ⟨-, rfl⟩
    have hv := h.area_of_page har ha hi hq hpage
    rw [hv] at hbin
    exact hanon hbin
  · have hcov' : (s.vma e i).covers va' = true := (har.ok i).covers_iff_hasPage.2 (hq.symm ▸ hpage)
    have ha := har.areaAt_of_mem hi hcov'
    obtain ⟨pp, hentry⟩ := hz.entry_in
    have huser : isUser (s.vma e i).perm = true := by
      rcases (readable_iff hdir').1 hread with hU | ⟨v, hv, hU⟩
      · have hU := hU.2
        rw [hq, hentry, insertPte_isUser] at hU
        exact hU
      · rw [areaAt_congr (hz.keeps.lists e), ha] at hv
        obtain rfl := Option.some.inj hv
        exact hU
    rw [h.fresh hdir hva' (hq.symm ▸ habs) ha huser, seen_of_cell hdir'
      (hq.symm ▸ hz.cell_in (pgoff va'))]
    exact (if_neg fun hc => hanon hc.1).symm

/-- **The program** has been loaded. -/
theorem loaded (h : Coherent s D K l M) (hdir : s.pgdir e = some d) {la lf : List ℕ}
    (har : Areas (s.envs e) la lf) {i : ℕ} (hi : i ∈ la) (hcov : (s.vma e i).covers va = true)
    (hbin : (s.vma e i).type = .binary) (habs : isPresent (s.mm.entry d (vpn va)) = false)
    (hl : VmInv.Loaded s s' D K l' d (s.vma e i)) : Coherent s' D K l' M := by
  have hok : AreaOk (s.vma e i) := har.ok i
  have hloads := h.areas e d hdir va _ (har.areaAt_of_mem hi hcov)
  have hpage := hok.covers_iff_hasPage.1 hcov
  have hdir' := (hl.keeps.pgdir e).trans hdir
  -- one of its pages is not there, and so none of them is
  have hnone : ∀ q, (s.vma e i).HasPage q → isPresent (s.mm.entry d q) = false := by
    refine (hloads.whole hbin).resolve_left fun hall => ?_
    have hP := hall _ hpage
    rw [habs] at hP
    exact absurd hP (by simp)
  have hserved := hl.served h.unshared
  refine h.served hdir hserved (fun va' v ha hold => ?_) (fun va' hva' hq hread => ?_) fun _ _ _ =>
    rfl
  · by_cases hv : v = (s.vma e i).body
    · subst hv
      exact ⟨hold.forked, hold.start, fun _ => Or.inl fun q hq => (hl.entry q hq).1⟩
    · refine hold.congr fun q hq => ?_
      rw [hserved.aside.entry d (h.inv.dir e d hdir) q (h.page_low ha hq)]
      rintro ⟨-, hq'⟩
      exact hv (h.area_of_page har ha hi hq hq')
  · have ha := har.areaAt_of_mem hi (hok.covers_iff_hasPage.2 hq)
    have huser : isUser (s.vma e i).perm = true := by
      rcases (readable_iff hdir').1 hread with hU | ⟨v, hv, hU⟩
      · rw [← (hl.entry _ hq).2]
        exact hU.2
      · rw [areaAt_congr (hl.keeps.lists e), ha] at hv
        obtain rfl := Option.some.inj hv
        exact hU
    have hne : (s.vma e i).perm ≠ 0 := by
      intro hz
      rw [hz] at huser
      exact absurd huser (by decide)
    have hstart : (s.vma e i).cpyDst.toNat = 0 := congrArg BitVec.toNat (hloads.start hbin)
    have ho : pgoff va' < 4096 := by
      rw [pgoff_eq]
      omega
    have hat : vpn va' * 4096 + pgoff va' = va'.toNat := by
      rw [pgoff_eq, vpn]
      omega
    have hin := (VmInv.hasPage_iff_addr hok ho).1 hq
    have hoff : (va' - (s.vma e i).va).toNat = va'.toNat - (s.vma e i).va.toNat := by
      refine BitVec.toNat_sub_of_le ?_
      rw [BitVec.le_def]
      omega
    rw [h.fresh hdir hva' (hnone _ hq) ha huser]
    by_cases hk : (va' - (s.vma e i).va).toNat < (s.vma e i).srcSz.toNat
    · have hcell := hl.program h.unshared (vpn va') (low_vpn hva') (pgoff va') ho _ hk (by omega)
      rw [seen_of_cell hdir' hcell, BitVec.ofNat_toNat, BitVec.setWidth_eq]
      exact (if_pos ⟨hbin, hk⟩).symm
    · rw [seen_of_cell hdir' (hl.rest h.unshared hne (vpn va') hq (pgoff va') ho (by omega))]
      exact (if_neg fun hc => hk hc.2).symm

/-- **The page** is the environment's own now. -/
theorem deduped (h : Coherent s D K l M) (hdir : s.pgdir e = some d) {la lf : List ℕ}
    (har : Areas (s.envs e) la lf) (hva : va < uTop)
    (hP : isPresent (s.mm.entry d (vpn va)) = true) (hd : Deduped s s' D K l' d va w)
    (hnew : w = s.mm.entry d (vpn va) ||| pteW ∨
      ∃ j ∈ la, (s.vma e j).covers va = true ∧ ∃ pgn, w = insertPte pgn (s.vma e j).perm) :
        Coherent s' D K l' M := by
  have hdD : d ∈ D := h.inv.dir e d hdir
  obtain ⟨hserved, hcell⟩ := hd.served h.inv hdD hva hP
  have hdir' := (hserved.keeps.pgdir e).trans hdir
  have hentry : s'.mm.entry d (vpn va) = w :=
    (hd.rewrites d hdD _ (PtInv.lt_pow_of_low (low_vpn hva))).trans (if_pos ⟨rfl, rfl⟩)
  refine h.served hdir hserved (fun va' v ha hold => hold.congr fun q hq => ?_)
    (fun va' hva' hq hread => ?_) fun _ _ _ => rfl
  · by_cases hqv : q = vpn va
    · rw [hqv, hentry, hd.mapped, hP]
    · rw [hserved.aside.entry d hdD q (h.page_low ha hq) fun hc => hqv hc.2]
  · have hold : s.mm.cell d (vpn va') (pgoff va') =
        some (s.mm.mem (pgnum (s.mm.entry d (vpn va'))) (pgoff va')) :=
      Mm.cell_of_maps ⟨hq.symm ▸ hP, rfl⟩
    have hsame : s'.seen e va' = s.seen e va' := by
      rw [seen_of_cell hdir hold, seen_of_cell hdir' ((hq.symm ▸ hcell (pgoff va')).trans hold)]
    have hread' : s.Readable e va' := by
      rcases (readable_iff hdir').1 hread with hU | ⟨v, hv, hU⟩
      · have hU := hU.2
        rw [hq, hentry] at hU
        rcases hnew with hw | ⟨j, hj, hcov, pgn, hw⟩
        · rw [hw, isUser_or_pteW] at hU
          exact Or.inl ⟨d, hdir, hq.symm ▸ hP, hq.symm ▸ hU⟩
        · rw [hw, insertPte_isUser] at hU
          have hok : AreaOk (s.vma e j) := har.ok j
          have hcov' : (s.vma e j).covers va' = true :=
            hok.covers_iff_hasPage.2 (hq.symm ▸ hok.covers_iff_hasPage.1 hcov)
          exact Or.inr ⟨_, har.areaAt_of_mem hj hcov', hU⟩
      · rw [areaAt_congr (hserved.keeps.lists e)] at hv
        exact Or.inr ⟨v, hv, hU⟩
    rw [hsame]
    exact h.agrees e d hdir va' hva' hread'

/-! ### Fork -/

/-- The pages that fork copies to the child look the same in both, and like those of the parent
before. -/
theorem forked_view {parent child dp dc : ℕ} {la : List ℕ} (h : Coherent s D K l M) (hdp : dp ∈ D)
    (hdup : VmInv.Duplicated s s' D K l' parent child dp dc la) {q : ℕ} (hq : q / 1024 < pdx uTop)
    (hP : ∃ i ∈ la, (s.vma parent i).Forked ∧ (s.vma parent i).HasPage q) {d' : ℕ}
    (hd' : d' = dp ∨ d' = dc) :
    PageAlike s.mm s'.mm dp d' q := by
  have hentry := hdup.copied d' hd' q hP
  have hpres : isPresent (s'.mm.entry d' q) = isPresent (s.mm.entry dp q) := by
    rw [hentry, isPresent_cowPte]
  refine ⟨hpres, ?_, fun o => Mm.cell_congr hpres fun hPp => ?_⟩
  · rw [hentry, isUser, cowPte_and (by decide), ← isUser]
  · obtain ⟨hheld, hplain⟩ := h.inv.held_of_present hdp hq hPp
    rw [hentry, pgnum_cowPte]
    exact (hdup.pages _ hheld hplain).2.2

/-- The other pages look the same to their environments. -/
theorem other_view {parent child dp dc : ℕ} {la : List ℕ} (h : Coherent s D K l M)
    (hdup : VmInv.Duplicated s s' D K l' parent child dp dc la) {q : ℕ} (hd : d ∈ D)
    (hq : q / 1024 < pdx uTop)
    (hn : ¬ (d = dp ∧ ∃ i ∈ la, (s.vma parent i).Forked ∧ (s.vma parent i).HasPage q)) :
    PageAlike s.mm s'.mm d d q := by
  have hentry := hdup.same d hd q hq hn
  refine ⟨congrArg isPresent hentry, congrArg isUser hentry, fun o => Mm.cell_congr
    (congrArg isPresent hentry) fun hP => ?_⟩
  obtain ⟨hheld, hplain⟩ := h.inv.held_of_present hd hq hP
  rw [hentry]
  exact (hdup.pages _ hheld hplain).2.2

/-- After a fork no shared page may be written to. -/
theorem dup_unshared {parent child dp dc : ℕ} {la : List ℕ} (h : Coherent s D K l M) (hdp : dp ∈ D)
    (hdup : VmInv.Duplicated s s' D K l' parent child dp dc la) : Unshared s'.mm (insert dc D) := by
  have hcow : ∀ d', d' = dp ∨ d' = dc →
      ∀ q, (∃ i ∈ la, (s.vma parent i).Forked ∧ (s.vma parent i).HasPage q) →
      isWritable (s'.mm.entry d' q) = false := fun d' hd' q hF => by
    rw [hdup.copied d' hd' q hF]
    exact isWritable_cowPte _
  -- an entry of the child that is not a copy is 0
  have hold : ∀ d' ∈ insert dc D, ∀ q, q / 1024 < pdx uTop → isPresent (s'.mm.entry d' q) = true →
      ¬ ((d' = dp ∨ d' = dc) ∧ ∃ i ∈ la, (s.vma parent i).Forked ∧ (s.vma parent i).HasPage q) →
      d' ∈ D ∧ s'.mm.entry d' q = s.mm.entry d' q := by
    intro d' hd' q hq hP hn
    rcases Finset.mem_insert.1 hd' with rfl | hd'
    · rw [hdup.absent q hq fun hF => hn ⟨Or.inr rfl, hF⟩] at hP
      exact absurd hP (by decide)
    · exact ⟨hd', hdup.same d' hd' q hq fun hc => hn ⟨Or.inl hc.1, hc.2⟩⟩
  intro d₁ hd₁ d₂ hd₂ hne q hq hP hmap
  by_cases h₁ : (d₁ = dp ∨ d₁ = dc) ∧ ∃ i ∈ la, (s.vma parent i).Forked ∧ (s.vma parent i).HasPage q
  · exact hcow d₁ h₁.1 q h₁.2
  · obtain ⟨hmem₁, heq₁⟩ := hold d₁ hd₁ q hq hP h₁
    rw [heq₁] at hP hmap ⊢
    by_cases h₂ : (d₂ = dp ∨ d₂ = dc) ∧ ∃ i ∈ la, (s.vma parent i).Forked ∧
      (s.vma parent i).HasPage q
    · -- the frame of a copy was the parent's before
      rw [hdup.copied d₂ h₂.1 q h₂.2, maps_cowPte] at hmap
      refine h.unshared d₁ hmem₁ dp hdp ?_ q hq hP hmap
      rintro rfl
      exact h₁ ⟨Or.inl rfl, h₂.2⟩
    · obtain ⟨hmem₂, heq₂⟩ := hold d₂ hd₂ q hq hmap.1 h₂
      rw [heq₂] at hmap
      exact h.unshared d₁ hmem₁ d₂ hmem₂ hne q hq hP hmap

/-- **A fork** copies the memory of the parent. -/
theorem dup {parent child dp dc : ℕ} {la lf : List ℕ} (h : Coherent s D K l M)
    (hp : s.pgdir parent = some dp) (har : Areas (s.envs parent) la lf)
    (hdup : VmInv.Duplicated s s' D K l' parent child dp dc la) :
    Coherent s' (insert dc D) K l' (M.fork parent child) := by
  have hdp : dp ∈ D := h.inv.dir parent dp hp
  -- every environment but the child is as before
  have hview : ∀ e' d', s.pgdir e' = some d' → ∀ q, q / 1024 < pdx uTop →
      PageAlike s.mm s'.mm d' d' q := by
    intro e' d' hd' q hq
    by_cases hF : d' = dp ∧ ∃ i ∈ la, (s.vma parent i).Forked ∧ (s.vma parent i).HasPage q
    · obtain ⟨rfl, hF⟩ := hF
      exact h.forked_view hdp hdup hq hF (Or.inl rfl)
    · exact h.other_view hdup (h.inv.dir e' d' hd') hq hF
  have hothers : ∀ e' ≠ child, ∀ d', s'.pgdir e' = some d' → s.pgdir e' = some d' := by
    intro e' he d' hd'
    rw [Vm.pgdir, hdup.others e' he] at hd'
    exact hd'
  have harea : ∀ e' ≠ child, ∀ va, s'.areaAt e' va = s.areaAt e' va := fun e' he va =>
    areaAt_congr (by rw [hdup.others e' he])
  -- the child has the areas of the parent
  have hchild : ∀ va, s'.areaAt child va = s.areaAt parent va := by
    intro va
    obtain ⟨lc, lf', har', huses⟩ := hdup.areas
    refine Option.ext fun v => ?_
    rw [har'.areaAt_iff, har.areaAt_iff, huses]
  have hforked : ∀ va v, s.areaAt parent va = some v → ∀ q, v.HasPage q →
      ∃ i ∈ la, (s.vma parent i).Forked ∧ (s.vma parent i).HasPage q := by
    intro va v ha q hq
    have hF := (h.areas parent dp hp va v ha).forked
    obtain ⟨⟨i, hi, rfl⟩, -⟩ := har.areaAt_iff.1 ha
    exact ⟨i, hi, hF, hq⟩
  have hdc : ∀ d', s'.pgdir child = some d' → d' = dc :=
    fun d' hd' => Option.some.inj (hd'.symm.trans hdup.pgdir)
  refine ⟨⟨hdup.inv, h.dup_unshared hdp hdup, fun e' d' hd' va v ha => ?_⟩,
    fun e' d' hd' va hva hread => ?_⟩
  · by_cases he : e' = child
    · subst he
      obtain rfl := hdc d' hd'
      rw [hchild] at ha
      refine (h.areas parent dp hp va v ha).congr fun q hq => ?_
      exact (h.forked_view hdp hdup (h.page_low ha hq) (hforked va v ha q hq) (Or.inr rfl)).present
    · rw [harea e' he] at ha
      have hold := hothers e' he d' hd'
      exact (h.areas e' d' hold va v ha).congr fun q hq =>
        (hview e' d' hold q (h.page_low ha hq)).present
  · by_cases he : e' = child
    · subst he
      obtain rfl := hdc d' hd'
      rw [Memory.fork, Function.update_self]
      -- where the child may read there is a copy
      have hF : ∃ i ∈ la, (s.vma parent i).Forked ∧ (s.vma parent i).HasPage (vpn va) := by
        rcases (readable_iff hd').1 hread with hU | ⟨v, hv, -⟩
        · by_contra hn
          have hP := hU.1
          rw [hdup.absent _ (low_vpn hva) hn] at hP
          exact absurd hP (by decide)
        · rw [hchild] at hv
          refine hforked va v hv (vpn va) ?_
          obtain ⟨⟨i, -, rfl⟩, hcov⟩ := har.areaAt_iff.1 hv
          exact (har.ok i).covers_iff_hasPage.1 hcov
      obtain ⟨hseen, hiff⟩ := seen_congr hp hd' (h.forked_view hdp hdup (low_vpn hva) hF
        (Or.inr rfl)) (hchild va) hdup.image
      rw [hseen]
      exact h.agrees parent dp hp va hva (hiff.1 hread)
    · have hold := hothers e' he d' hd'
      obtain ⟨hseen, hiff⟩ :=
        seen_congr hold hd' (hview e' d' hold _ (low_vpn hva)) (harea e' he va) hdup.image
      rw [hseen, Memory.fork, Function.update_of_ne he]
      exact h.agrees e' d' hold va hva (hiff.1 hread)

end Coherent

/-! ### Steps -/

/-- **What happens to the memory of environments**: a user program loads or stores a byte or runs
into a page fault, or an environment is duplicated. -/
inductive MemOp
  | load (e : ℕ) (va : BitVec 32) (b : BitVec 8)
  | store (e : ℕ) (va : BitVec 32) (b : BitVec 8)
  | fault (e : ℕ) (va : BitVec 32) (write : Bool)
  | fork (parent child : ℕ)
  deriving DecidableEq, Repr

/-- The frame that a user program gets at an address below `UTOP`. -/
def userFrame (s : Vm) (e : ℕ) (va : BitVec 32) (write : Bool) : Option ℕ :=
  if va < uTop then
    match mmu s e va true write with
    | .frame f => some f
    | _ => none
  else none

/-- The bit of `tf_err` for a violation of the protection, after an access of a user program that
faults. -/
def userFault (s : Vm) (e : ℕ) (va : BitVec 32) (write : Bool) : Option Bool :=
  match mmu s e va true write with
  | .frame _ => none
  | .notPresent => some false
  | .protection => some true

/-- The state after the handler, unless `page_dedup` has found no frame. -/
def handled : Except Crash (FaultEnd × Vm) → Option Vm
  | .ok (r, s) => if r = .dedupFailed then none else some s
  | .error _ => none

/-- The state after `env_dup`, when it succeeds. -/
def duplicated : Except Crash (Bool × Vm) → Option Vm
  | .ok (true, s) => some s
  | _ => none

namespace MemOp

/-- **One step**, when it is possible and nothing that it allocates is missing. -/
def exec (s : Vm) : MemOp → Option Vm
  | load e va b =>
      (userFrame s e va false).bind fun f => if s.byte f (pgoff va) = b then some s else none
  | store e va b => (userFrame s e va true).map fun f => s.setByte f (pgoff va) b
  | fault e va write =>
      if s.pgdir e = none then none else (userFault s e va write).bind fun prot =>
        handled (s.pageFaultHandler e va true prot)
  | fork parent child =>
      if s.pgdir parent ≠ none ∧ child ≤ nEnv ∧ s.pgdir child = none then duplicated
        (envDup s parent child) else none

def Step (s : Vm) (c : MemOp) (s' : Vm) : Prop := c.exec s = some s'

/-- **The same with eager copies.** -/
def eager (M : Memory) : MemOp → Memory
  | store e va b => M.store e va b
  | fork parent child => M.fork parent child
  | _ => M

/-- **The condition for a step**: a fault that destroys the environment does not find exactly one
reference of the frame of its slot. -/
def KeepsSlot (s : Vm) : MemOp → Prop
  | fault e va write =>
      ∀ prot, userFault s e va write = some prot → FaultKills s e va prot → s.ref (s.envFrame e) ≠ 1
  | _ => True

end MemOp

theorem userFrame_eq_some {s : Vm} {e f : ℕ} {va : BitVec 32} {write : Bool} :
    userFrame s e va write = some f ↔ va < uTop ∧ mmu s e va true write = .frame f := by
  unfold userFrame
  split
  · rename_i hva
    cases hm : mmu s e va true write with
    | frame g => simp [hva]
    | notPresent => simp
    | protection => simp
  · rename_i hva
    simp [hva]

theorem handled_eq_some {x : Except Crash (FaultEnd × Vm)} {s : Vm} :
    handled x = some s ↔ ∃ r, r ≠ .dedupFailed ∧ x = .ok (r, s) := by
  cases x with
  | error c => simp [handled]
  | ok y =>
      obtain ⟨r, t⟩ := y
      simp only [handled, Except.ok.injEq, Prod.mk.injEq]
      split
      · rename_i hr
        simp [hr]
      · rename_i hr
        simp [hr]

theorem duplicated_eq_some {x : Except Crash (Bool × Vm)} {s : Vm} :
    duplicated x = some s ↔ x = .ok (true, s) := by
  cases x with
  | error c => simp [duplicated]
  | ok y =>
      obtain ⟨ok, t⟩ := y
      cases ok with
      | false => simp [duplicated]
      | true => simp [duplicated]

/-- An access that the hardware lets through is one of an environment. -/
theorem exists_dir_of_frame {s : Vm} {e f : ℕ} {va : BitVec 32} {user write : Bool}
    (h : mmu s e va user write = .frame f) :
    ∃ d, s.pgdir e = some d := by
  refine Option.ne_none_iff_exists'.1 fun hnone => ?_
  rw [mmu, hnone] at h
  exact absurd h (by simp)

namespace MemOp

variable {s s' : Vm} {e parent child : ℕ} {va : BitVec 32} {b : BitVec 8} {write : Bool}

theorem step_load : (load e va b).Step s s' ↔
    s' = s ∧ ∃ f, va < uTop ∧ mmu s e va true false = .frame f ∧ s.byte f (pgoff va) = b := by
  rw [Step, exec]
  rw [Option.bind_eq_some_iff]
  constructor
  · rintro ⟨f, hf, hb⟩
    obtain ⟨hva, hm⟩ := userFrame_eq_some.1 hf
    split at hb
    · rename_i hbyte
      exact ⟨(Option.some.inj hb).symm, f, hva, hm, hbyte⟩
    · exact absurd hb (by simp)
  · rintro ⟨rfl, f, hva, hm, hb⟩
    exact ⟨f, userFrame_eq_some.2 ⟨hva, hm⟩, if_pos hb⟩

theorem step_store :
    (store e va b).Step s s' ↔ ∃ f, va < uTop ∧ mmu s e va true true = .frame f ∧
      s' = s.setByte f (pgoff va) b := by
  rw [Step, exec]
  rw [Option.map_eq_some_iff]
  refine exists_congr fun f => ?_
  rw [userFrame_eq_some, and_assoc, eq_comm (a := s')]

theorem step_fault : (fault e va write).Step s s' ↔
    ∃ prot r, s.pgdir e ≠ none ∧ userFault s e va write = some prot ∧ r ≠ .dedupFailed ∧
      s.pageFaultHandler e va true prot = .ok (r, s') := by
  rw [Step, exec]
  by_cases hdir : s.pgdir e = none
  · simp [hdir]
  · rw [if_neg hdir, Option.bind_eq_some_iff]
    refine exists_congr fun prot => ?_
    rw [handled_eq_some]
    simp [hdir]

theorem step_fork : (fork parent child).Step s s' ↔
    s.pgdir parent ≠ none ∧ child ≤ nEnv ∧ s.pgdir child = none ∧
      envDup s parent child = .ok (true, s') := by
  rw [Step, exec]
  rw [Option.ite_none_right_eq_some, duplicated_eq_some, and_assoc, and_assoc]

end MemOp

namespace Coherent

variable {s s' : Vm} {D K : Finset ℕ} {l : List ℕ} {M : Memory} {e : ℕ} {va : BitVec 32}
    {write prot : Bool}

/-- **A page fault** changes nothing that user programs find. -/
theorem fault (h : Coherent s D K l M) (hdir : s.pgdir e ≠ none)
    (hf : userFault s e va write = some prot) {r : FaultEnd} (hr : r ≠ .dedupFailed)
    (hrun : s.pageFaultHandler e va true prot = .ok (r, s'))
    (hslot : FaultKills s e va prot → s.ref (s.envFrame e) ≠ 1) :
    ∃ D' l', Coherent s' D' K l' M := by
  obtain ⟨d, hdir⟩ := Option.ne_none_iff_exists'.1 hdir
  obtain ⟨la, lf, har⟩ := h.inv.areas e
  -- the bit says whether the page is present
  have hbit : va < uTop → isPresent (s.mm.entry d (vpn va)) = prot := by
    intro hva
    unfold userFault at hf
    rcases h.inv.mmu_cases hdir hva true write with ⟨hm, hP⟩ | ⟨hm, hP⟩ | ⟨hm, -, -⟩
    · rw [hm] at hf
      exact hP.trans (Option.some.inj hf)
    · rw [hm] at hf
      exact hP.trans (Option.some.inj hf)
    · rw [hm] at hf
      exact absurd hf (by simp)
  have hend := (h.inv.fault hdir har true prot fun hp hva => (hbit hva).trans hp).of_ok hrun hslot
  cases hend with
  | loaded i l' hi hcov hbin hprot hres hl =>
      exact ⟨D, l', h.loaded hdir har hi hcov hbin ((hbit ((har.ok i).lt hcov)).trans hprot) hl⟩
  | zeroed i l' hi hcov hanon hprot hres hz =>
      exact ⟨D, l', h.zeroed hdir har hi hcov hanon ((hbit ((har.ok i).lt hcov)).trans hprot) hz⟩
  | deduped i l' w hi hcov hw hres hP hd hnew =>
      exact ⟨D, l', h.deduped hdir har ((har.ok i).lt hcov) hP hd hnew⟩
  | failed hres hl hP href => exact absurd hres hr
  | killed l' hres hfreed => exact ⟨D.erase d, l', h.freed hdir hfreed⟩
  | asleep heq =>
      obtain ⟨-, rfl⟩ := Prod.mk.inj heq
      exact ⟨D, l, h⟩

/-- **One step**, with the eager copies beside it. -/
theorem step (h : Coherent s D K l M) {c : MemOp} (hok : c.KeepsSlot s) (hst : c.Step s s') :
    ∃ D' l', Coherent s' D' K l' (c.eager M) := by
  cases c with
  | load e va b =>
      obtain ⟨rfl, -⟩ := MemOp.step_load.1 hst
      exact ⟨D, l, h⟩
  | store e va b =>
      obtain ⟨f, hva, hm, rfl⟩ := MemOp.step_store.1 hst
      obtain ⟨d, hdir⟩ := exists_dir_of_frame hm
      exact ⟨D, l, h.store hdir hva hm⟩
  | fault e va write =>
      obtain ⟨prot, r, hdir, hprot, hr, hrun⟩ := MemOp.step_fault.1 hst
      exact h.fault hdir hprot hr hrun (hok prot hprot)
  | fork parent child =>
      obtain ⟨hp, hchild, hc, hrun⟩ := MemOp.step_fork.1 hst
      obtain ⟨dp, hp⟩ := Option.ne_none_iff_exists'.1 hp
      obtain ⟨la, lf, har⟩ := h.inv.areas parent
      rcases (h.inv.dup hp har hc hchild).of_ok hrun with heq | ⟨dc, l', ⟨-, hdup⟩ | ⟨hfalse, -⟩⟩
      · exact absurd (Prod.mk.inj heq).1 (by simp)
      · exact ⟨insert dc D, l', h.dup hp har hdup⟩
      · exact absurd hfalse (by simp)

end Coherent

/-! ### Runs -/

/-- **Every load returns what it would return after eager copies**, at the end of a run whose steps
all meet the condition. -/
theorem fork_refines_eager {s₀ s s' : Vm} {D K : Finset ℕ} {l : List ℕ} {tr : List (Vm × MemOp)}
    (h : CowInv s₀ D K l) (hrun : Run MemOp.Step s₀ tr s)
    (hok : Meets (fun s c => c.KeepsSlot s) tr) {e : ℕ} {va : BitVec 32} {b : BitVec 8}
    (hload : (MemOp.load e va b).Step s s') :
    b = (tr.map Prod.snd).foldl MemOp.eager s₀.seen e va := by
  have hstep : ∀ s c t M, (∃ D l, Coherent s D K l M) → MemOp.KeepsSlot s c → MemOp.Step s c t →
      ∃ D l, Coherent t D K l (MemOp.eager M c) := by
    rintro s c t M ⟨D, l, h⟩ hc hst
    exact h.step hc hst
  obtain ⟨D', l', hend⟩ := hrun.simulates hstep ⟨D, l, h.coherent⟩ hok
  obtain ⟨-, f, hva, hm, hbyte⟩ := MemOp.step_load.1 hload
  obtain ⟨d, hdir⟩ := exists_dir_of_frame hm
  rw [← hbyte]
  exact hend.load hdir hva hm

/-! ### One environment with one page -/

/-- The environment 0 has an area of one page with the permission `perm`, the directory 2 and no
page yet. The frames 4, 6, 7 and 8 are free. -/
def freshPage (perm : BitVec 32) : Vm where
  mm := ⟨16, frames_sixteen, false,
    fun i => ⟨if i = 4 then some 6 else if i = 6 then some 7 else if i = 7 then some 8
      else none, none, if i = 2 then 1 else 0,
      if i = 4 ∨ i = 6 ∨ i = 7 ∨ i = 8 then 0 else alloc⟩, some 4, 4, ⟨none, none, none, none, none,
      none⟩, 0, 0, fun _ _ => 0⟩
  envs e := if e = 0 then Space.ofAreas (some 2) [⟨.anon, 0x1000, 0x1000, perm, none, 0, 0, 0,
    false⟩] 0 else Space.ofAreas none [] 0
  kernPgdir _ := 0
  image _ := 0
  envFrame _ := 1
  written := []

/-- The frames of the kernel in it. -/
def freshPageKernel : Finset ℕ := {0, 1, 3, 5, 9, 10, 11, 12, 13, 14, 15}

section OnePage

variable {perm : BitVec 32} {e d : ℕ}

theorem freshPage_self : (freshPage perm).envs 0 = Space.ofAreas (some 2)
    [⟨.anon, 0x1000, 0x1000, perm, none, 0, 0, 0, false⟩] 0 := rfl

theorem freshPage_of_ne (he : e ≠ 0) : (freshPage perm).envs e = Space.ofAreas none [] 0 :=
  if_neg he

theorem freshPage_dir (h : (freshPage perm).pgdir e = some d) : e = 0 ∧ d = 2 := by
  by_cases he : e = 0
  · subst he
    exact ⟨rfl, (Option.some.inj h).symm⟩
  · rw [Vm.pgdir, freshPage_of_ne he] at h
    exact absurd h (by simp [Space.ofAreas])

theorem freshPage_word (d i : ℕ) : (freshPage perm).mm.word d i = 0 := by
  change (0#8 ++ 0#8 ++ 0#8 ++ 0#8 : BitVec 32) = 0
  decide

theorem freshPage_absent (d i : ℕ) : isPresent ((freshPage perm).mm.word d i) = false := by
  rw [freshPage_word]
  decide

theorem freshPage_entry (d q : ℕ) : (freshPage perm).mm.entry d q = 0 :=
  Mm.entry_of_absent (freshPage_absent d _)

theorem freshPage_user :
    Areas ((freshPage (pteU ||| pteW)).envs 0) [0] (List.range' 1 (nVma - 1)) := by
  have hsorted := @ofAreas_sorted [⟨.anon, 0x1000, 0x1000, pteU ||| pteW, none, 0, 0, 0,
    false⟩] (by decide) (by decide) (some 2) 0
  refine ⟨hsorted.lists, fun i => ?_, List.pairwise_singleton ..⟩
  cases i with
  | zero =>
      refine ⟨by decide, rfl, ⟨rfl, rfl⟩, by decide, ?_, ?_, fun _ => rfl⟩
      · simp [freshPage_self, Space.ofAreas]
      · simp [freshPage_self, Space.ofAreas]
  | succ i => exact areaOk_unused _

theorem freshPage_other (he : e ≠ 0) : Areas ((freshPage perm).envs e) [] (List.range' 0 nVma) := by
  have hsorted := @ofAreas_sorted [] (by decide) (by decide) none 0
  rw [freshPage_of_ne he]
  exact ⟨hsorted.lists, fun i => areaOk_unused _, List.Pairwise.nil⟩

theorem freshPage_areas (e : ℕ) : ∃ la lf, Areas ((freshPage (pteU ||| pteW)).envs e) la lf := by
  by_cases he : e = 0
  · subst he
    exact ⟨_, _, freshPage_user⟩
  · exact ⟨_, _, freshPage_other he⟩

theorem freshPage_inv : VmInv (freshPage (pteU ||| pteW)) {2} freshPageKernel [4, 6, 7, 8] where
  pt :=
    { free := ⟨⟨rfl, rfl, rfl, rfl, rfl⟩, by decide, fun i hi => by
        have hi : i ≠ 4 ∧ i ≠ 6 ∧ i ≠ 7 := by
          refine ⟨?_, ?_, ?_⟩ <;> rintro rfl <;> simp at hi
        exact (if_neg hi.1).trans ((if_neg hi.2.1).trans (if_neg hi.2.2))⟩
      held := by
        intro f hf
        obtain rfl := Finset.mem_singleton.1 hf
        exact ⟨by decide, by decide, by decide⟩
      kept := by decide
      away := by decide
      small := fun d _ i _ hP => absurd (hP.symm.trans (freshPage_absent d i)) (by simp)
      table := fun d i t ht => absurd (ht.2.2.1.symm.trans (freshPage_absent d i)) (by simp)
      apart := fun d i d' i' t ht => absurd (ht.2.2.1.symm.trans (freshPage_absent d i)) (by simp)
      pte := fun d i t ht => absurd (ht.2.2.1.symm.trans (freshPage_absent d i)) (by simp)
      upper := fun d _ i _ _ hP => absurd (hP.symm.trans (freshPage_absent d i)) (by simp)
      ref := fun f _ hf => by
        rw [mappings_empty fun d _ => freshPage_word d]
        have hne : f ≠ 2 := by
          rintro rfl
          exact hf.1 (Finset.mem_singleton_self 2)
        exact if_neg hne }
  one := fun d _ d' _ p p' _ _ f hm => absurd (freshPage_entry d p ▸ hm) (not_maps_zero f)
  clean := fun d _ p _ => (freshPage_entry d p).symm ▸ cleanPte_zero
  log := by simp [freshPage]
  dirRef := by
    intro d hd
    obtain rfl := Finset.mem_singleton.1 hd
    rfl
  dir := fun e d hd => Finset.mem_singleton.2 (freshPage_dir hd).2
  owner := fun d hd => ⟨0, by decide, by rw [Finset.mem_singleton.1 hd]; rfl⟩
  distinct := fun e e' d hd hd' => (freshPage_dir hd).1.trans (freshPage_dir hd').1.symm
  areas := freshPage_areas
  idle := fun e he => by
    have hne : e ≠ 0 := by
      rintro rfl
      exact absurd he (by simp [Vm.pgdir, freshPage_self, Space.ofAreas])
    rw [freshPage_of_ne hne]
    rfl
  slots := fun e => ⟨(by decide : 1 ∈ freshPageKernel), (by decide : 1 < 16)⟩
  kern := fun i _ _ (hP : isPresent 0 = true) => absurd hP (by decide)
  zero := by decide

theorem freshPage_cow : CowInv (freshPage (pteU ||| pteW)) {2} freshPageKernel [4, 6, 7, 8] := by
  refine .of_empty freshPage_inv (fun d _ q _ => freshPage_entry d q) fun e va v ha => ?_
  by_cases he : e = 0
  · subst he
    have har : Areas ((freshPage (pteU ||| pteW)).envs 0) [0] (List.range' 1 (nVma - 1)) :=
      freshPage_user
    obtain ⟨⟨i, hi, rfl⟩, -⟩ := har.areaAt_iff.1 ha
    obtain rfl := List.mem_singleton.1 hi
    exact ⟨Or.inl rfl, fun hc => absurd hc (by decide)⟩
  · have har : Areas ((freshPage (pteU ||| pteW)).envs e) [] (List.range' 0 nVma) :=
      freshPage_other he
    obtain ⟨⟨i, hi, -⟩, -⟩ := har.areaAt_iff.1 ha
    exact absurd hi (by simp)

end OnePage

/-- What the environment 0 stores before a fork, its child loads after it. -/
theorem fork_refines_eager_child : ∃ tr s, Run MemOp.Step (freshPage (pteU ||| pteW)) tr s ∧
    tr.map Prod.snd = [.fault 0 0x1000 true, .store 0 0x1001 7, .fork 0 1] ∧
    (MemOp.load 1 0x1001 7).Step s s ∧
    7 = (tr.map Prod.snd).foldl MemOp.eager (freshPage (pteU ||| pteW)).seen 1 0x1001 := by
  have hend : ((execAll MemOp.exec (freshPage (pteU ||| pteW))
      [.fault 0 0x1000 true, .store 0 0x1001 7, .fork 0 1]).any fun s =>
      (MemOp.exec s (.load 1 0x1001 7)).isSome) = true := by
    decide +kernel
  obtain ⟨s, hs, hload⟩ := (Option.any_eq_true _ _).1 hend
  obtain ⟨s₁, h₁, hs⟩ := Option.bind_eq_some_iff.1 hs
  obtain ⟨s₂, h₂, hs⟩ := Option.bind_eq_some_iff.1 hs
  obtain ⟨s₃, h₃, hs⟩ := Option.bind_eq_some_iff.1 hs
  obtain rfl := Option.some.inj hs
  obtain ⟨s', hload⟩ := Option.isSome_iff_exists.1 hload
  obtain ⟨rfl, -⟩ := MemOp.step_load.1 hload
  have hrun : Run MemOp.Step (freshPage (pteU ||| pteW)) _ s' :=
    (((Run.nil _).snoc h₁).snoc h₂).snoc h₃
  refine ⟨_, s', hrun, rfl, hload, fork_refines_eager freshPage_cow hrun ?_ hload⟩
  -- no reference of the slot's frame is counted at the fault
  have hslot : (freshPage (pteU ||| pteW)).ref ((freshPage (pteU ||| pteW)).envFrame 0) ≠ 1 := by
    decide
  intro p hp
  simp only [List.nil_append, List.cons_append, List.mem_cons, List.not_mem_nil, or_false] at hp
  rcases hp with rfl | rfl | rfl
  · exact fun _ _ _ => hslot
  · exact True.intro
  · exact True.intro

/-- A store to a page that is not shared: the handler makes it writable. -/
theorem pageFaultHandler_sole {s : Vm} {e d t v : ℕ} {va : BitVec 32}
    (h : CowFault s e d v va ⟨t, ptx va⟩) (htab : Maps (s.mm.word d (pdx va)) t)
    (hsmall : isHuge (s.mm.word d (pdx va)) = false) (ht : t < s.mm.npages)
    (href : s.ref (pgnum (s.pte ⟨t, ptx va⟩)) = 1) : s.pageFaultHandler e va true true =
      .ok (.resumed, s.writePte ⟨t, ptx va⟩ va (pgnum (s.pte ⟨t, ptx va⟩))
        (s.pte ⟨t, ptx va⟩ ||| pteW)) := by
  have hfind : pgdirFind s (s.pgdir e) va = .ok (some ⟨t, ptx va⟩) := by
    rw [h.dir]
    exact pgdirFind_table htab hsmall ht
  have hin : ¬ isSwapped (s.pte ⟨t, ptx va⟩) = true := by
    rw [isSwapped, h.present]
    exact Bool.false_ne_true
  simp only [Vm.pageFaultHandler, hfind, h.area, h.dedup_sole href]
  change (if isSwapped (s.pte ⟨t, ptx va⟩) = true then _
    else if isWritable (s.vma e v).perm = true then _ else _) = _
  rw [if_neg hin, if_pos h.writable]
  rfl

/-- The words, the counts and the areas that the handler reads after the environment 0 has forked,
where the entry of its page maps the frame 5 and not the frame 4 that was counted. -/
def Vm.forged (s : Vm) : Bool :=
  s.pgdir 0 == some 2 && s.mm.npages == 16 && s.pte ⟨2, 0⟩ == 0x6007 && s.pte
    ⟨6, 1⟩ == 0x5005 && s.ref 5 == 1 &&
    (vmaLookup (s.envs 0) 0x1000).toOption == some (some 0) && isWritable (s.vma 0 0).perm &&
    (s.mm.pages 2).has alloc &&
    (s.mm.pages 6).has alloc && (s.mm.pages 5).has alloc && userFault s 0 0x1000
      true == some true &&
    (execAll MemOp.exec (s.writePte ⟨6, 1⟩ 0x1000 5 0x5007) [.store 0 0x1001 8]).any fun t =>
    (MemOp.exec t (.load 1 0x1001 8)).isSome

/-- **A permission with an address in it** makes the entry map another frame than the one that is
counted, and the child sees what the parent stores after the fork. -/
theorem fork_shares_forged : (∃ lf, Sorted ((freshPage (pteU ||| pteW ||| 0x1000)).envs 0) [0] lf) ∧
    ∃ tr s, Run MemOp.Step (freshPage (pteU ||| pteW ||| 0x1000)) tr s ∧ tr.map Prod.snd =
      [.fault 0 0x1000 true, .store 0 0x1001 7, .fork 0 1, .fault 0 0x1000 true, .store 0 0x1001
        8] ∧ (MemOp.load 1 0x1001 8).Step s s ∧
      (tr.map Prod.snd).foldl MemOp.eager (freshPage (pteU ||| pteW ||| 0x1000)).seen 1
        0x1001 = 7 := by
  have hend : ((execAll MemOp.exec (freshPage (pteU ||| pteW ||| 0x1000))
      [.fault 0 0x1000 true, .store 0 0x1001 7, .fork 0 1]).any
      Vm.forged) = true := by
    decide +kernel
  obtain ⟨s, hs, hforged⟩ := (Option.any_eq_true _ _).1 hend
  obtain ⟨tr, hrun, htr⟩ := run_of_execAll hs
  simp only [Vm.forged, Bool.and_eq_true, beq_iff_eq, and_assoc] at hforged
  obtain ⟨hdir, hnp, hpde, hpte, href, harea, hw, hdirUsed, htableUsed, hframeUsed, hprot, hrest⟩ :=
    hforged
  have hpx : pdx (0x1000 : BitVec 32) = 0 := by decide
  have hpt : ptx (0x1000 : BitVec 32) = 1 := by decide
  have hpg : pgnum 0x5005 = 5 := by decide
  have hpde' : s.pte ⟨2, pdx 0x1000⟩ = 0x6007 := by rw [hpx, hpde]
  have hpte' : s.pte ⟨6, ptx 0x1000⟩ = 0x5005 := by rw [hpt, hpte]
  have hframe : pgnum (s.pte ⟨6, ptx 0x1000⟩) = 5 := by rw [hpte', hpg]
  -- the only reference that is counted for the frame 5 is the child's
  have hfault : CowFault s 0 2 0 0x1000 ⟨6, ptx 0x1000⟩ := by
    refine ⟨hdir, ok_of_toOption harea, hw, ?_, Or.inr ⟨?_, ?_, by decide, ?_, ?_⟩, ?_, ?_,
      hdirUsed, htableUsed, ?_, ?_, ?_⟩
    · rw [hpde']
      decide
    · rw [hpde']
      decide
    · rw [hpde']
      decide
    · rw [hnp]
      decide
    · rw [hpte']
      decide
    · rw [hpte']
      decide
    · rw [hpte']
      decide
    · rw [hframe, hnp]
      decide
    · rw [hframe]
      exact hframeUsed
    · rw [hframe, href]
      decide
  have htab : Maps (s.mm.word 2 (pdx 0x1000)) 6 := by
    rw [show s.mm.word 2 (pdx 0x1000) = 0x6007 from hpde']
    exact ⟨by decide, by decide⟩
  have hsmall : isHuge (s.mm.word 2 (pdx 0x1000)) = false := by
    rw [show s.mm.word 2 (pdx 0x1000) = 0x6007 from hpde']
    decide
  have hsole :=
    pageFaultHandler_sole hfault htab hsmall (by rw [hnp]; decide) (by rw [hframe, href])
  rw [hframe, hpte', hpt] at hsole
  have hstep : (MemOp.fault 0 0x1000 true).Step s (s.writePte ⟨6, 1⟩ 0x1000 5 0x5007) :=
    MemOp.step_fault.2 ⟨true, .resumed, by rw [hdir]; simp, hprot, by decide, hsole⟩
  obtain ⟨t, ht, hload⟩ := (Option.any_eq_true _ _).1 hrest
  obtain ⟨t', hstore, ht⟩ := Option.bind_eq_some_iff.1 ht
  obtain rfl := Option.some.inj ht
  obtain ⟨t', hload⟩ := Option.isSome_iff_exists.1 hload
  obtain ⟨rfl, -⟩ := MemOp.step_load.1 hload
  have hlabels : ((tr ++ [(s, MemOp.fault 0 0x1000 true)]) ++
      [(s.writePte ⟨6, 1⟩ 0x1000 5 0x5007, MemOp.store 0 0x1001 8)]).map Prod.snd =
      [.fault 0 0x1000 true, .store 0 0x1001 7, .fork 0 1, .fault 0 0x1000 true,
        .store 0 0x1001 8] := by
    simp [htr]
  refine ⟨⟨_, ofAreas_sorted (by decide) (by decide) (some 2) 0⟩, _, t',
    (hrun.snoc hstep).snoc hstore, hlabels, hload, ?_⟩
  rw [hlabels]
  decide +kernel

end Jos
