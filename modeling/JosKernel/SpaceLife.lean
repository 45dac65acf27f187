/-
**Address spaces come and go.**

`env_setup_vm` gives an environment a directory, and `env_free` takes its pages, its page tables and
the directory back; both keep the invariant of all address spaces. `env_free` ends with a reference
of the frame in which the slot of the environment lies, which nothing had taken before.

Main results:

* `Jos.VmInv.setup` — `env_setup_vm` of a free slot;
* `Jos.VmInv.release` — the memory part of `env_free`, when it does not drop the last reference of
  the slot's frame;
* `Jos.envFreeVm_empty` — the same for an environment without page tables, with the exact result.
-/

import JosKernel.Directories

set_option relaxedAutoImplicit false
set_option autoImplicit false

namespace Jos

open LinkedList Outcome

-- addresses of the kernel and the loop over the descriptors are not computed with
attribute [local irreducible] paddr vmaProcInit

/-! ### Other directories -/

namespace VmInv

variable {s s' : Vm} {D D' K : Finset ℕ} {l l' : List ℕ}

/-- The invariant for other directories: the entries of each are as before, or 0. -/
theorem ofDirs (h : VmInv s D K l) (hpt : PtInv s'.mm D' K l') (hnp : s'.mm.npages = s.mm.npages)
    (hentry : ∀ d ∈ D', ∀ p, p / 1024 < pdx uTop →
      s'.mm.entry d p = 0 ∨ (d ∈ D ∧ s'.mm.entry d p = s.mm.entry d p))
    (hlog : s'.written = s.written) (hrefs : ∀ d ∈ D', s'.ref d = 1)
    (hdir : ∀ e d, s'.pgdir e = some d → d ∈ D')
    (howner : ∀ d ∈ D', ∃ e ≤ nEnv, s'.pgdir e = some d)
    (hdistinct : ∀ e e' d, s'.pgdir e = some d → s'.pgdir e' = some d → e = e')
    (hareas : ∀ e, ∃ la lf, Areas (s'.envs e) la lf)
    (hidle : ∀ e, s'.pgdir e = none → (s'.envs e).allocVmaList = none)
    (hframe : s'.envFrame = s.envFrame)
    (hkern : s'.kernPgdir = s.kernPgdir) : VmInv s' D' K l' where
  pt := hpt
  one d hd d' hd' p p' hp hp' f hm hm' := by
    rcases hentry d hd p hp with hz | ⟨hmem, heq⟩
    · rw [hz] at hm
      exact absurd hm (not_maps_zero f)
    rcases hentry d' hd' p' hp' with hz | ⟨hmem', heq'⟩
    · rw [hz] at hm'
      exact absurd hm' (not_maps_zero f)
    rw [heq] at hm
    rw [heq'] at hm'
    exact h.one d hmem d' hmem' p p' hp hp' f hm hm'
  clean d hd p hp := by
    rcases hentry d hd p hp with hz | ⟨hmem, heq⟩
    · rw [hz]
      exact cleanPte_zero
    · rw [heq]
      exact h.clean d hmem p hp
  log := by
    rw [hlog]
    exact h.log
  dirRef := hrefs
  dir := hdir
  owner := howner
  distinct := hdistinct
  areas := hareas
  idle := hidle
  slots e := by
    rw [hframe, hnp]
    exact h.slots e
  kern i := by
    rw [hkern]
    exact h.kern i
  zero := h.zero

/-- The reference count of a frame of the kernel. -/
theorem setRef (h : VmInv s D K l) {f : ℕ} (hf : f ∈ K) (n : BitVec 16) :
    VmInv (s.setRef f n) D K l := by
  have hne : ∀ g, g ∉ K → g ≠ f := by
    rintro g hg rfl
    exact hg hf
  have href : ∀ g, g ∉ K → ((s.setRef f n).mm.pages g).ppRef = (s.mm.pages g).ppRef := fun g hg =>
    (Vm.ppRef_setRef ..).trans (if_neg (hne g hg))
  have hpt : PtInv (s.setRef f n).mm D K l := by
    refine h.pt.same (fun _ _ _ => rfl) rfl (h.pt.free.setRef_vm n (h.pt.kept f hf)) h.pt.kept
      (fun g hg => hg.congr rfl (Vm.flags_setRef ..)) ?_
    rintro g (hg | ⟨d, i, hg⟩)
    · exact href g hg.2.1
    · exact href g (h.pt.table d i g hg).2.2.1
  refine h.ofSame hpt rfl (fun _ _ _ _ => rfl) (.of_eq rfl) (fun d hd => href d fun hK => ?_)
    ⟨rfl, rfl, rfl, rfl⟩
  exact h.pt.away d hK hd

end VmInv

/-! ### `env_setup_vm` -/

/-- The loop of `env_setup_vm` writes words of the directory, and nothing else. -/
theorem copyKernPgdir (p : ℕ) : ∀ (is : List ℕ) (s : Vm), ∃ M : ℕ → ℕ → BitVec 8,
    is.foldl (fun s i => s.setPte ⟨p, i⟩ (s.kernPgdir i))
      s = { s with mm := { s.mm with mem := M } } ∧
    (∀ g ≠ p, M g = s.mm.mem g) ∧
    ∀ k, ({ s.mm with mem := M } : Mm).word p k = if k ∈ is then s.kernPgdir k
      else s.mm.word p k := by
  intro is
  induction is with
  | nil => exact fun s => ⟨s.mm.mem, rfl, fun _ _ => rfl, fun _ => rfl⟩
  | cons i is ih =>
      intro s
      obtain ⟨M, hM, hframe, hword⟩ := ih (s.setPte ⟨p, i⟩ (s.kernPgdir i))
      refine ⟨M, hM, fun g hg => ?_, fun k => ?_⟩
      · exact (hframe g hg).trans (Function.update_of_ne hg ..)
      · have hw : (s.setPte ⟨p, i⟩ (s.kernPgdir i)).mm.word p k =
            if p = p ∧ k = i then s.kernPgdir i else s.mm.word p k := Vm.word_setPte ..
        refine (hword k).trans ?_
        rw [hw]
        by_cases hk : k ∈ is
        · rw [if_pos hk, if_pos (List.mem_cons_of_mem i hk)]
          rfl
        · by_cases hki : k = i
          · subst hki
            rw [if_neg hk, if_pos ⟨rfl, rfl⟩, if_pos List.mem_cons_self]
          · rw [if_neg hk, if_neg fun hc => hki hc.2, if_neg (by simp [hk, hki])]

/-- The entry at `UVPT`. -/
def uVptPde (p : ℕ) : BitVec 32 := page2pa p ||| pteP ||| pteU

theorem pgnum_uVptPde {p : ℕ} (hp : p < 2 ^ 20) : pgnum (uVptPde p) = p := by
  rw [uVptPde, BitVec.or_assoc]
  exact pgnum_page2pa_or hp (by decide)

/-- The frame whose addresses `PADDR` refuses. -/
@[irreducible] def badFrame : ℕ := 0x2a5

/-- The physical address of a byte of a frame. -/
def bytePa (pp off : ℕ) : BitVec 32 := page2pa pp + BitVec.ofNat 32 off

theorem bytePa_zero (pp : ℕ) : bytePa pp 0 = page2pa pp := BitVec.add_zero ..

theorem bytePa_toNat {pp off : ℕ} (hpp : pp < 2 ^ 20) (hoff : off < pgSize) :
    (bytePa pp off).toNat = pp * 4096 + off := by
  rw [pgSize] at hoff
  rw [bytePa, BitVec.toNat_add, page2pa_toNat hpp, BitVec.toNat_ofNat]
  omega

/-- **`PADDR` at every byte of the memory mapped at `KERNBASE`.** -/
theorem paddr_byte {pp off : ℕ} (hpp : pp < 65536) (hoff : off < pgSize) :
    paddr (bytePa pp off + kernBase) = if pp = badFrame then throw (.panic "BADBAD")
      else Except.ok (bytePa pp off) := by
  have hkb : kernBase.toNat = 4026531840 := rfl
  have hpa := bytePa_toNat (Nat.lt_trans hpp (by decide)) hoff
  have hlow : off < 4096 := hoff
  have hkva : (bytePa pp off + kernBase).toNat = pp * 4096 + off + 4026531840 := by
    rw [BitVec.toNat_add, hpa, hkb]
    omega
  have hge : ¬ bytePa pp off + kernBase < kernBase := by
    rw [BitVec.lt_def, hkva, hkb]
    omega
  have hbad : (0xf02a5000#32 ≤ bytePa pp off + kernBase ∧
      bytePa pp off + kernBase < 0xf02a6000#32) ↔ pp = badFrame := by
    have hlo : (0xf02a5000#32).toNat = 4029304832 := rfl
    have hhi : (0xf02a6000#32).toNat = 4029308928 := rfl
    rw [BitVec.le_def, BitVec.lt_def, hkva, hlo, hhi, badFrame]
    omega
  unfold paddr
  rw [if_neg hge]
  by_cases hf : pp = badFrame
  · rw [if_pos hf, if_pos (hbad.2 hf)]
  · rw [if_neg hf, if_neg (mt hbad.1 hf)]
    exact congrArg Except.ok (BitVec.add_sub_cancel ..)

/-- The address of a frame, when it can be mapped at `KERNBASE`. -/
theorem paddr_frame {f : ℕ} (hf : f < 65536) :
    paddr (page2pa f + kernBase) = if f = badFrame then throw (.panic "BADBAD")
      else .ok (page2pa f) := by
  have hbyte := @paddr_byte f 0 hf (by decide)
  rwa [bytePa_zero] at hbyte

/-- An address of a frame that the kernel can reach is turned back into that of the frame, or the
kernel stops. -/
theorem paddr_page2pa {p : ℕ} {kva : BitVec 32} (hp : p < 2 ^ 20)
    (hkva : kva = page2pa p + kernBase) :
    Ends (fun _ => badFrame ≤ p) (fun pa => pa = page2pa p) (paddr kva) := by
  have hkb : kernBase.toNat = 4026531840 := rfl
  have hbig : p < badFrame → kva.toNat = p * 4096 + 4026531840 := by
    intro hlt
    rw [badFrame] at hlt
    rw [hkva, BitVec.toNat_add, page2pa_toNat hp, hkb]
    omega
  unfold paddr
  refine ends_ite (fun h₁ => ?_) fun _ => ends_ite (fun h₂ => ?_) fun _ => ?_
  · rw [ends_throw, ← not_lt]
    intro hlt
    rw [BitVec.lt_def, hbig hlt, hkb] at h₁
    omega
  · rw [ends_throw, ← not_lt]
    intro hlt
    have hle := h₂.1
    have hbound : (0xf02a5000#32).toNat = 4029304832 := rfl
    rw [BitVec.le_def, hbig hlt, hbound] at hle
    rw [badFrame] at hlt
    omega
  · rw [ends_pure, hkva]
    exact BitVec.add_sub_cancel ..

/-- The kernel does not stop: the allocator is sound, and no frame lies where `PADDR` refuses it. -/
def Runs (s : Vm) (l : List ℕ) : Prop := Steady s.mm l ∧ s.mm.npages ≤ badFrame

/-- **What `env_setup_vm` leaves behind when it returns 0**, with the new directory `p`. -/
structure SetUp (s s' : Vm) (D K : Finset ℕ) (l : List ℕ) (e p : ℕ) : Prop where
  inv : VmInv s' (insert p D) K (l.erase p)
  npages : s'.mm.npages = s.mm.npages
  fresh : p ∉ D
  envs : s'.envs = (s.modSpace e fun sp => { sp with pgdir := some p }).envs
  entry : ∀ d ∈ D, ∀ q, q / 1024 < pdx uTop → s'.mm.entry d q = s.mm.entry d q
  empty : ∀ i < pdx uTop, isPresent (s'.mm.word p i) = false
  refs : ∀ f ≠ p, s'.ref f = s.ref f
  pages : ∀ f, s.mm.Held f → s.mm.Plain D K f →
    s'.mm.Held f ∧ s'.mm.Plain (insert p D) K f ∧ s'.mm.mem f = s.mm.mem f
  envFrame : s'.envFrame = s.envFrame
  image : s'.image = s.image
  runs : Runs s l → Runs s' (l.erase p)

namespace VmInv

variable {s s' : Vm} {D K : Finset ℕ} {l : List ℕ} {e p : ℕ} {m : Mm}

/-- The directories once the slot `e` has one. -/
theorem pgdir_newDir (henvs : s'.envs = (s.modSpace e fun sp => { sp with pgdir := some p }).envs)
    (e' : ℕ) : s'.pgdir e' = if e' = e then some p else s.pgdir e' := by
  rw [Vm.pgdir, henvs]
  by_cases hee : e' = e
  · subst hee
    rw [if_pos rfl, Vm.modSpace_self]
  · rw [if_neg hee, Vm.modSpace_of_ne s _ hee]
    rfl

/-- Every directory belongs to one environment then. -/
theorem owner_newDir (h : VmInv s D K l) (he : e ≤ nEnv) (hnone : s.pgdir e = none)
    (hpg : ∀ e', s'.pgdir e' = if e' = e then some p else s.pgdir e') {d : ℕ}
    (hd : d ∈ insert p D) : ∃ e' ≤ nEnv, s'.pgdir e' = some d := by
  rcases Finset.mem_insert.1 hd with rfl | hd
  · exact ⟨e, he, (hpg e).trans (if_pos rfl)⟩
  · obtain ⟨e', he', hdir⟩ := h.owner d hd
    have hne : e' ≠ e := by
      rintro rfl
      rw [hnone] at hdir
      exact absurd hdir (by simp)
    exact ⟨e', he', (hpg e').trans ((if_neg hne).trans hdir)⟩

theorem distinct_newDir (h : VmInv s D K l) (hp : p ∉ D)
    (hpg : ∀ e', s'.pgdir e' = if e' = e then some p else s.pgdir e') {e₁ e₂ d : ℕ}
    (h₁ : s'.pgdir e₁ = some d) (h₂ : s'.pgdir e₂ = some d) : e₁ = e₂ := by
  have hnot : ∀ e', s.pgdir e' ≠ some p := fun e' hd => hp (h.dir e' p hd)
  rw [hpg] at h₁ h₂
  split at h₁
  · rename_i he₁
    split at h₂
    · rename_i he₂
      exact he₁.trans he₂.symm
    · rw [← h₁] at h₂
      exact absurd h₂ (hnot e₂)
  · split at h₂
    · rw [← h₂] at h₁
      exact absurd h₁ (hnot e₁)
    · exact h.distinct e₁ e₂ d h₁ h₂

/-- The upper entries of a new directory are those of the kernel and the one at `UVPT`. -/
theorem upper_newDir (h : VmInv s D K l) (hp : p < 2 ^ 20)
    (hword : ∀ k < 1024, s'.mm.word p k =
      if k = pdx uVpt then uVptPde p else if pdx uTop ≤ k then s.kernPgdir k else 0)
    {i : ℕ} (hi : i < 1024) (hge : pdx uTop ≤ i) (hP : isPresent (s'.mm.word p i) = true) :
    isHuge (s'.mm.word p i) = true ∨ pgnum (s'.mm.word p i) ∈ K ∨ pgnum (s'.mm.word p i) = p := by
  rw [hword i hi] at hP ⊢
  by_cases hu : i = pdx uVpt
  · rw [if_pos hu, pgnum_uVptPde hp]
    exact Or.inr (Or.inr rfl)
  · rw [if_neg hu, if_pos hge] at hP ⊢
    exact (h.kern i hi hge hP).imp_right Or.inl

/-- A frame that has been handed out becomes the directory of an environment that has none. -/
theorem setUp_of_words (h : VmInv s D K l) (he : e ≤ nEnv) (hnone : s.pgdir e = none) (hp : p ∈ l)
    (ht : Taken s.mm m allocZero p) (hfree : FreeInv m (l.erase p)) (hnp : s'.mm.npages = m.npages)
    (hfree' : FreeInv s'.mm (l.erase p)) (hflags : ∀ g,
      (s'.mm.pages g).pageFlags = (m.pages g).pageFlags)
    (hrefs : ∀ g, s'.ref g = if g = p then (m.pages p).ppRef + 1 else (m.pages g).ppRef)
    (hmem : ∀ g ≠ p, s'.mm.mem g = m.mem g)
    (hword : ∀ k < 1024, s'.mm.word p k =
      if k = pdx uVpt then uVptPde p else if pdx uTop ≤ k then s.kernPgdir k else 0)
    (henvs : s'.envs = (s.modSpace e fun sp => { sp with pgdir := some p }).envs)
    (hlog : s'.written = s.written) (hframe : s'.envFrame = s.envFrame)
    (himage : s'.image = s.image)
    (hkern : s'.kernPgdir = s.kernPgdir) (hruns : Runs s l → Runs s' (l.erase p)) :
    SetUp s s' D K l e p := by
  obtain ⟨hinv, hheld, hplain, hno⟩ := h.take hp ht hfree
  have hUvpt : pdx uVpt = 957 := by decide
  have hwords : ∀ g ≠ p, ∀ k, s'.mm.word g k = m.word g k :=
    fun g hg k => Mm.word_of_mem (hmem g hg) k
  have hlow : ∀ i < pdx uTop, isPresent (s'.mm.word p i) = false := by
    intro i hi
    rw [pdx_uTop] at hi
    rw [hword i (by omega), if_neg (by omega), pdx_uTop, if_neg (by omega)]
    rfl
  have hpt : PtInv s'.mm (insert p D) K (l.erase p) := by
    refine hinv.pt.newDir hheld hplain hno hwords hlow hnp hfree' hflags (fun g hg => ?_)
      fun i hi hge => h.upper_newDir hheld.lt_pow hword hi hge
    exact (hrefs g).trans (if_neg hg)
  have hentry : ∀ {d q}, q / 1024 < pdx uTop → (d ∈ D → s'.mm.entry d q = m.entry d q) ∧
      s'.mm.entry p q = 0 :=
    fun hq => PtInv.entry_newDir hplain hwords hlow hq
  have hold : ∀ d ∈ D, ∀ q, q / 1024 < pdx uTop → m.entry d q = s.mm.entry d q := fun d hd q hq =>
    (h.pt.take hp ht hfree).2 d hd q (PtInv.lt_pow_of_low hq)
  have hpg := pgdir_newDir henvs
  refine ⟨?_, hnp.trans ht.npages, hplain.1, henvs, fun d hd q hq => ?_, hlow, fun f hf => ?_,
    fun f hf hpl => ?_, hframe, himage, hruns⟩
  · refine h.ofDirs hpt (hnp.trans ht.npages) ?_ hlog ?_ ?_
      (fun d hd => h.owner_newDir he hnone hpg hd)
      (fun e₁ e₂ d h₁ h₂ => h.distinct_newDir hplain.1 hpg h₁ h₂) ?_ ?_ hframe hkern
    · intro d hd q hq
      rcases Finset.mem_insert.1 hd with rfl | hd
      · exact Or.inl (hentry (d := d) hq).2
      · exact Or.inr ⟨hd, ((hentry hq).1 hd).trans (hold d hd q hq)⟩
    · intro d hd
      rcases Finset.mem_insert.1 hd with rfl | hd
      · rw [hrefs, if_pos rfl, ht.ref, (h.pt.free.listed d hp).2.2]
        rfl
      · have hne : d ≠ p := by
          intro heq
          exact hplain.1 (heq ▸ hd)
        rw [hrefs, if_neg hne, ht.ref]
        exact h.dirRef d hd
    · intro e' d hd
      rw [hpg] at hd
      split at hd
      · exact Finset.mem_insert.2 (Or.inl (Option.some_inj.1 hd).symm)
      · exact Finset.mem_insert_of_mem (h.dir e' d hd)
    · intro e'
      obtain ⟨la, lf, har⟩ := h.areas e'
      refine ⟨la, lf, har.congr ?_⟩
      rw [henvs]
      by_cases hee : e' = e
      · subst hee
        rw [Vm.modSpace_self]
        rfl
      · rw [Vm.modSpace_of_ne s _ hee]
    · intro e' hnone'
      rw [hpg] at hnone'
      split at hnone'
      · exact absurd hnone' (by simp)
      · rename_i hee
        rw [henvs, Vm.modSpace_of_ne s _ hee]
        exact h.idle e' hnone'
  · exact ((hentry hq).1 hd).trans (hold d hd q hq)
  · rw [hrefs, if_neg hf]
    exact ht.ref f
  · have hne : f ≠ p := by
      rintro rfl
      exact h.pt.free.not_mem_of_held hf hp
    have hdirs : ∀ d ∈ D, ∀ i, m.word d i = s.mm.word d i := by
      intro d hd i
      refine Mm.word_of_mem (ht.mem d ?_) i
      rintro rfl
      exact hplain.1 hd
    refine ⟨?_, ?_, (hmem f hne).trans (ht.mem f hne)⟩
    · exact hf.congr (hnp.trans ht.npages) ((hflags f).trans (ht.flags f hne))
    · exact (PtInv.plain_newDir hplain hwords hlow).2 ⟨(PtInv.plain_congr hdirs).2 hpl, hne⟩

/-- **`env_setup_vm`** of a slot that has no directory: it fails only when no frame is free. -/
theorem setup (h : VmInv s D K l) (he : e ≤ nEnv) (hnone : s.pgdir e = none) :
    Ends (fun _ => ¬ Runs s l)
      (fun r => (r = (false, s) ∧ l = []) ∨ (r.1 = true ∧ ∃ p ∈ l, SetUp s r.2 D K l e p))
      (envSetupVm s e) := by
  unfold envSetupVm
  rw [ends_bind]
  refine (pageAlloc_taken h.pt.free (by decide) (by decide)).mono (fun _ hc hr => hc hr.1) ?_
  rintro ⟨pg, m⟩ (⟨heq, hl⟩ | ⟨p, hp, hr, ht, hfree, hst⟩)
  · obtain ⟨rfl, rfl⟩ := Prod.mk.injEq .. ▸ heq
    exact Or.inl ⟨rfl, hl⟩
  · obtain rfl : pg = some p := hr
    have ht : Taken s.mm m allocZero p := ht
    have hfree : FreeInv m (l.erase p) := hfree
    have hst : Steady s.mm l → Steady m (l.erase p) := hst
    have hlt : p < s.mm.npages := (h.pt.free.listed p hp).1
    have hpow : p < 2 ^ 20 := Nat.lt_of_lt_of_le hlt s.mm.npages_le
    have hka : kaddr (({ s with mm := m } : Vm).setRef p
        (({ s with mm := m } : Vm).ref p + 1)).mm.npages
        (page2pa p) = Except.ok (page2pa p + kernBase) := by
      have hin : ¬ m.npages ≤ p := by
        rw [ht.npages]
        omega
      rw [kaddr, pgnum_page2pa, Nat.mod_eq_of_lt hpow]
      exact if_neg hin
    have hout : p ∉ l.erase p :=
      fun hmem => (List.Nodup.mem_erase_iff h.pt.free.chain.nodup).1 hmem |>.1 rfl
    dsimp only
    rw [hka, ends_bind, ends_ok, ends_bind]
    generalize hkva : page2pa p + kernBase = kva
    refine (paddr_page2pa hpow hkva.symm).mono (fun c hbad => ?_) fun pa hpa => ?_
    · exact fun hruns => absurd (hlt.trans_le hruns.2) (not_lt.2 hbad)
    · rw [hpa]
      refine Or.inr ⟨rfl, p, hp, ?_⟩
      obtain ⟨M, hM, hframe, hword⟩ :=
        copyKernPgdir p (List.range' (pdx uTop) (nPdEntries - pdx uTop))
        ((({ s with mm := m } : Vm).setRef p (({ s with mm := m } : Vm).ref p + 1)).modSpace e
          fun sp => { sp with pgdir := some p })
      rw [hM]
      have hwp : ∀ k, m.word p k = 0 := Mm.word_of_zero (ht.zero (by decide))
      refine h.setUp_of_words he hnone hp ht hfree rfl ?_ (fun g => Vm.flags_setRef ..)
        (fun g => ?_)
        (fun g hg => ?_) (fun k hk => ?_) rfl rfl rfl rfl rfl (fun hruns => ⟨?_, ?_⟩)
      · exact FreeInv.setWord _ _ _ (FreeInv.setMem
          (FreeInv.setRef_vm (s := { s with mm := m }) _ hfree hout) M)
      · exact Vm.ppRef_setRef { s with mm := m } p g _
      · exact (Function.update_of_ne hg ..).trans (hframe g hg)
      · refine (Vm.word_setPte ..).trans ?_
        by_cases hu : k = pdx uVpt
        · rw [if_pos ⟨rfl, hu⟩, if_pos hu]
          rfl
        · rw [if_neg fun hc => hu hc.2, if_neg hu]
          refine (hword k).trans ?_
          have hiff : k ∈ List.range' (pdx uTop) (nPdEntries - pdx uTop) ↔ pdx uTop ≤ k := by
            rw [List.mem_range'_1, pdx_uTop, nPdEntries]
            omega
          by_cases hge : pdx uTop ≤ k
          · rw [if_pos (hiff.2 hge), if_pos hge]
            rfl
          · rw [if_neg fun hc => hge (hiff.1 hc), if_neg hge]
            exact hwp k
      · exact Steady.setWord _ _ _
          (Steady.setMem (Steady.setRef (s := { s with mm := m }) _ (hst hruns.1)) M)
      · exact ht.npages.le.trans hruns.2

end VmInv

/-! ### Dropping a reference -/

/-- The last reference of a frame in use. -/
theorem decref_last {s : Vm} {l : List ℕ} {pp : ℕ} (h : FreeInv s.mm l) (hh : s.mm.Held pp)
    (href : s.ref pp = 1) :
    Ends (fun _ => False)
      (fun s' => ∃ m, s' = { s with mm := m } ∧ Given s.mm m pp ∧ FreeInv m (pp :: l) ∧
        (Steady s.mm l → Steady m (pp :: l)))
      (decref s pp) := by
  have hzero : ((s.setRef pp (s.ref pp - 1)).mm.pages pp).ppRef = 0 := by
    rw [Vm.ppRef_setRef, if_pos rfl, href]
    rfl
  have hheld : (s.setRef pp (s.ref pp - 1)).mm.Held pp := hh.congr rfl (Vm.flags_setRef ..)
  have hdec : pageDecref s.mm pp = pageFree (s.setRef pp (s.ref pp - 1)).mm pp := if_pos hzero
  rw [decref, hdec, ends_bind]
  refine (pageFree_given (h.setRef_vm _ (h.not_mem_of_held hh)) hheld).mono
    (fun _ hne => hne hzero) ?_
  rintro m ⟨hg, hfree, hst⟩
  refine ⟨m, rfl, ⟨hg.npages, fun i hi => ?_, hg.clear, fun i hi => ?_, hg.mem⟩, hfree, fun hs =>
    hst (hs.setRef _)⟩
  · exact (hg.ref i hi).trans ((Vm.ppRef_setRef ..).trans (if_neg hi))
  · exact (hg.flags i hi).trans (Vm.flags_setRef ..)

/-- A reference that is not the last one. -/
theorem decref_more {s : Vm} {pp : ℕ} (href : s.ref pp ≠ 1) :
    decref s pp = Except.ok (s.setRef pp (s.ref pp - 1)) := by
  have hne : ¬ ((s.setRef pp (s.ref pp - 1)).mm.pages pp).ppRef = 0 := by
    rw [Vm.ppRef_setRef, if_pos rfl]
    intro hz
    exact href (by bv_omega)
  have hdec : pageDecref s.mm pp = Except.ok (s.setRef pp (s.ref pp - 1)).mm := if_neg hne
  rw [decref, hdec]
  rfl

/-- A frame is found through an address in it, or the kernel stops. -/
theorem decrefKva_ends {s : Vm} {pp : ℕ} {E : Crash → Prop} {Q : Vm → Prop} (hpp : pp < s.mm.npages)
    (hbad : badFrame ≤ pp → ∀ c, E c) (h : Ends E Q (decref s pp)) : Ends E Q (decrefKva s pp) := by
  have hpow : pp < 2 ^ 20 := Nat.lt_of_lt_of_le hpp s.mm.npages_le
  have hpa : pa2page s.mm.npages (page2pa pp) = Except.ok pp := by
    rw [pa2page, pgnum_page2pa, Nat.mod_eq_of_lt hpow]
    exact if_neg (by omega)
  unfold decrefKva
  generalize hkva : page2pa pp + kernBase = kva
  rw [ends_bind]
  refine (paddr_page2pa hpow hkva.symm).mono (fun c hb => hbad hb c) fun pa hpa' => ?_
  rw [hpa', hpa]
  exact h

/-! ### `env_free` -/

theorem vpn_pgAddr {i j : ℕ} (hi : i < 1024) (hj : j < 1024) : vpn (pgAddr i j) = i * 1024 + j := by
  have hor : i <<< 22 ||| j <<< 12 = (i * 1024 + j) * 4096 := by
    have hlt : j <<< 12 < 2 ^ 22 := by
      rw [Nat.shiftLeft_eq]
      omega
    rw [← Nat.shiftLeft_add_eq_or_of_lt hlt, Nat.shiftLeft_eq, Nat.shiftLeft_eq]
    omega
  rw [vpn, pgAddr, pdxShift, pgShift, hor, BitVec.toNat_ofNat]
  omega

theorem pdx_pgAddr {i j : ℕ} (hi : i < 1024) (hj : j < 1024) : pdx (pgAddr i j) = i := by
  rw [pdx_eq, vpn_pgAddr hi hj]
  omega

theorem ptx_pgAddr {i j : ℕ} (hi : i < 1024) (hj : j < 1024) : ptx (pgAddr i j) = j := by
  rw [ptx_eq, vpn_pgAddr hi hj]
  omega

section Release

variable {s : Vm} {D K : Finset ℕ} {l : List ℕ} {e d i t : ℕ}

/-- What the loops of `env_free` over the directory `d` keep. -/
structure Shrinks (s s' : Vm) (D K : Finset ℕ) (l' : List ℕ) (d : ℕ) : Prop where
  inv : VmInv s' D K l'
  npages : s'.mm.npages = s.mm.npages
  refs : ∀ f ∈ K, s'.ref f = s.ref f
  space : SameSpaces s s'
  aside : Aside s s' D d fun _ => True

theorem Shrinks.refl (h : VmInv s D K l) (d : ℕ) : Shrinks s s D K l d :=
  ⟨h, rfl, fun _ _ => rfl, ⟨rfl, rfl, rfl, rfl⟩, .refl s D d _⟩

theorem Shrinks.trans {s' s'' : Vm} {l' l'' : List ℕ} (h : Shrinks s s' D K l' d)
    (h' : Shrinks s' s'' D K l'' d) :
    Shrinks s s'' D K l'' d :=
  ⟨h'.inv, h'.npages.trans h.npages, fun f hf => (h'.refs f hf).trans (h.refs f hf),
    h.space.trans h'.space,
    h.aside.trans h'.aside⟩

/-- **The loop of `env_free` over a page table** unmaps all of its pages. -/
theorem freeTable_ends (h : VmInv s D K l) (hdir : s.pgdir e = some d) (ht : s.mm.Table D d i t)
    {n : ℕ} (hn : n = nPdEntries) :
    Ends (fun _ => True)
      (fun s' => ∃ l', Shrinks s s' D K l' d ∧ (∀ k, s'.mm.word d k = s.mm.word d k) ∧
        ∀ j < n, s'.mm.word t j = 0)
      ((List.range n).foldlM (freePte e i t) s) := by
  have hi : i < 1024 := by
    have hlt := ht.2.1
    rw [pdx_uTop] at hlt
    omega
  rw [nPdEntries] at hn
  rw [List.range_eq_range']
  refine (ends_foldlM_range' (P := fun n s' => ∃ l', Shrinks s s' D K l' d ∧
    (∀ k, s'.mm.word d k = s.mm.word d k) ∧ ∀ j < n, s'.mm.word t j = 0) ?_ ?_)
  · exact ⟨l, .refl h d, fun _ => rfl, by simp⟩
  · rintro n hlt s₁ ⟨l₁, hs, hd, hz⟩
    have hn : n < 1024 := by omega
    have ht₁ : s₁.mm.Table D d i t := by
      rw [Mm.Table, hd]
      exact ht
    rw [Nat.zero_add, freePte]
    refine ends_ite (fun hP => ?_) fun hP => ?_
    · have hpg : s₁.pgdir e = some d := by
        rw [Vm.pgdir, hs.space.envs]
        exact hdir
      have hP : isPresent (s₁.mm.word t (ptx (pgAddr i n))) = true := by
        rw [ptx_pgAddr hi hn]
        exact hP
      have ht₁' : s₁.mm.Table D d (pdx (pgAddr i n)) t := by
        rw [pdx_pgAddr hi hn]
        exact ht₁
      rw [hpg]
      refine (hs.inv.removed ht₁' hP).post ?_
      rintro s₂ ⟨l₂, hinv₂, hrm⟩
      have hs₂ : Shrinks s₁ s₂ D K l₂ d :=
        ⟨hinv₂, hrm.npages, fun f hf => hrm.refs f (Or.inr hf), hrm.space,
        (hrm.aside hs.inv hinv₂).mono fun _ _ => True.intro⟩
      refine ⟨l₂, hs.trans hs₂, fun k => ?_, ?_⟩
      · exact (hrm.dir d ht.1 k).trans (hd k)
      · intro j hj
        have ht₂ : s₂.mm.Table D d i t := by
          rw [Mm.Table, hrm.dir d ht.1, hd]
          exact ht
        have hj' : j < 1024 := by omega
        have hrw := hrm.rewrites d ht.1 (i * 1024 + j) (by omega)
        rw [hinv₂.pt.entry_table ht₂ hj', vpn_pgAddr hi hn, hs.inv.pt.entry_table ht₁ hj'] at hrw
        rw [hrw]
        split
        · rfl
        · rename_i hne
          refine hz j ?_
          have hjn : j ≠ n := by
            rintro rfl
            exact hne ⟨rfl, rfl⟩
          omega
    · refine ⟨l₁, hs, hd, fun j hj => ?_⟩
      by_cases hjn : j = n
      · subst hjn
        refine (hs.inv.pt.pte d i t ht₁ j hn).resolve_right ?_
        exact fun hok => hP hok.1
      · exact hz j (by omega)

/-- **The round of `env_free` for one entry of the directory** gives the page table back. -/
theorem freePde_ends (h : VmInv s D K l) (hdir : s.pgdir e = some d) (hi : i < pdx uTop) :
    Ends (fun _ => True)
      (fun s' => ∃ l', Shrinks s s' D K l' d ∧ isPresent (s'.mm.word d i) = false ∧
        ∀ k ≠ i, s'.mm.word d k = s.mm.word d k)
      (freePde e d s i) := by
  have hd : d ∈ D := h.dir e d hdir
  unfold freePde
  refine ends_ite (fun hP => ?_) fun hP => ?_
  · obtain ⟨t, hpg⟩ : ∃ t, pgnum (s.mm.word d i) = t := ⟨_, rfl⟩
    have ht : s.mm.Table D d i t := ⟨hd, hi, hP, hpg⟩
    obtain ⟨hheld, htD, htK, href⟩ := h.pt.table d i t ht
    have hpa : pgnum (pteAddr (s.pte ⟨d, i⟩)) = t := (pgnum_pteAddr _).trans hpg
    dsimp only
    generalize pteAddr (s.pte ⟨d, i⟩) = pa at hpa
    have hka : kaddr s.mm.npages pa = Except.ok (pa + kernBase) := by
      rw [kaddr, hpa]
      exact if_neg (not_le.2 hheld.1)
    rw [hka, hpa, ends_bind, ends_ok, ends_bind]
    generalize hn : nPdEntries = n
    refine (freeTable_ends h hdir ht hn.symm).post ?_
    rintro s₁ ⟨l₁, hs, hdw, hz⟩
    rw [← hn, nPdEntries] at hz
    have ht₁ : s₁.mm.Table D d i t := by
      rw [Mm.Table, hdw]
      exact ht
    obtain ⟨hheld₁, -, -, href₁⟩ := hs.inv.pt.table d i t ht₁
    have hpage : pa2page (s₁.setPte ⟨d, i⟩ 0).mm.npages pa = Except.ok t := by
      rw [pa2page, hpa]
      exact if_neg (not_le.2 hheld₁.1)
    rw [hpage, ends_bind, ends_ok]
    have hfree₂ : FreeInv (s₁.setPte ⟨d, i⟩ 0).mm l₁ := hs.inv.pt.free.setWord ..
    have hheld₂ : (s₁.setPte ⟨d, i⟩ 0).mm.Held t := hheld₁
    refine (decref_last hfree₂ hheld₂ href₁).mono (fun _ _ => True.intro) ?_
    rintro s₂ ⟨m, rfl, hg, hfree, -⟩
    have hword : ∀ g ≠ t, ∀ k, m.word g k = if g = d ∧ k = i then 0 else s₁.mm.word g k := by
      intro g hne k
      rw [Mm.word_of_mem (hg.mem g hne)]
      exact Vm.word_setPte ..
    have hdt : d ≠ t := by
      rintro rfl
      exact htD hd
    have hnt : ∀ g, g ∈ D ∨ g ∈ K → g ≠ t := by
      rintro g hmem rfl
      exact hmem.elim htD htK
    have hentry : ∀ d' ∈ D, ∀ q, q / 1024 < pdx uTop → m.entry d' q = s₁.mm.entry d' q :=
      fun d' hd' q hq =>
      hs.inv.pt.entry_dropTable ht₁ hz hword hd' hq
    have hinv₂ : VmInv { s₁.setPte ⟨d, i⟩ 0 with mm := m } D K (t :: l₁) :=
      hs.inv.ofSame (hs.inv.pt.dropTable ht₁ hz hword hg.npages hfree hg.flags hg.ref hg.clear)
        hg.npages hentry
        (.of_eq rfl) (fun d' hd' => hg.ref d' (hnt d' (Or.inl hd'))) ⟨rfl, rfl, rfl, rfl⟩
    have hbytes : ∀ f, s₁.mm.Plain D K f → m.mem f = s₁.mm.mem f := by
      intro f hf
      have hft : f ≠ t := by
        rintro rfl
        exact hf.2.2 _ _ ht₁
      have hfd : f ≠ d := by
        rintro rfl
        exact hf.1 hd
      exact (hg.mem f hft).trans (Function.update_of_ne hfd ..)
    refine ⟨t :: l₁, hs.trans ⟨hinv₂, hg.npages, fun f hf => hg.ref f (hnt f (Or.inr hf)),
      ⟨rfl, rfl, rfl, rfl⟩, ?_⟩, ?_, ?_⟩
    · exact hs.inv.aside hinv₂ (fun d' hd' q hq _ => hentry d' hd' q hq) fun f _ hplain _ =>
        hbytes f hplain
    · change isPresent (m.word d i) = false
      rw [hword d hdt, if_pos ⟨rfl, rfl⟩]
      rfl
    · intro k hk
      refine (hword d hdt k).trans ?_
      rw [if_neg fun hc => hk hc.2]
      exact hdw k
  · exact ⟨l, .refl h d, Bool.eq_false_of_not_eq_true hP, fun _ _ => rfl⟩

/-- The loop of `env_free` over the directory. -/
theorem freePdes_ends (h : VmInv s D K l) (hdir : s.pgdir e = some d) {n : ℕ} (hn : n = pdx uTop) :
    Ends (fun _ => True)
      (fun s' => ∃ l', Shrinks s s' D K l' d ∧ ∀ i < n, isPresent (s'.mm.word d i) = false)
      ((List.range n).foldlM (freePde e d) s) := by
  rw [List.range_eq_range']
  refine (ends_foldlM_range' (P := fun n s' => ∃ l', Shrinks s s' D K l' d ∧
    ∀ i < n, isPresent (s'.mm.word d i) = false) ?_ ?_)
  · exact ⟨l, .refl h d, by simp⟩
  · rintro k hk s₁ ⟨l₁, hs, hz⟩
    have hpg : s₁.pgdir e = some d := by
      rw [Vm.pgdir, hs.space.envs]
      exact hdir
    rw [Nat.zero_add]
    refine (freePde_ends hs.inv hpg (hn ▸ hk)).post ?_
    rintro s₂ ⟨l₂, hs₂, habs, hkeep⟩
    refine ⟨l₂, hs.trans hs₂, fun i hi => ?_⟩
    by_cases hin : i = k
    · subst hin
      exact habs
    · rw [hkeep i hin]
      exact hz i (by omega)

/-- What `env_free` makes of the descriptors of an environment. -/
def freedSpace (sp : Space) : Space := { vmaProcInit sp with allocPages := 0, pgdir := none }

/-- The directory of an environment that has no page tables left goes back to the free list. -/
theorem VmInv.dropDir {s' : Vm} (h : VmInv s D K l) (hdir : s.pgdir e = some d)
    (hlow : ∀ i < pdx uTop, isPresent (s.mm.word d i) = false) (hg : Given s.mm s'.mm d)
    (hfree : FreeInv s'.mm (d :: l)) (henvs : s'.envs = (s.modSpace e freedSpace).envs)
    (hlog : s'.written = s.written) (hframe : s'.envFrame = s.envFrame)
    (hkern : s'.kernPgdir = s.kernPgdir) :
    VmInv s' (D.erase d) K (d :: l) := by
  have hd : d ∈ D := h.dir e d hdir
  have hwords : ∀ g ≠ d, ∀ k, s'.mm.word g k = s.mm.word g k :=
    fun g hne k => Mm.word_of_mem (hg.mem g hne) k
  have hpg : ∀ e', s'.pgdir e' = if e' = e then none else s.pgdir e' := by
    intro e'
    rw [Vm.pgdir, henvs]
    by_cases hee : e' = e
    · subst hee
      rw [if_pos rfl, Vm.modSpace_self]
      rfl
    · rw [if_neg hee, Vm.modSpace_of_ne s _ hee]
      rfl
  refine h.ofDirs (h.pt.dropDir hd hlow hwords hg.npages hfree hg.flags hg.ref hg.clear) hg.npages
    ?_ hlog ?_ ?_
    ?_ ?_ ?_ ?_ hframe hkern
  · intro d' hd' q hq
    exact Or.inr ⟨Finset.mem_of_mem_erase hd', h.pt.entry_dropDir hd hwords hd' hq⟩
  · intro d' hd'
    obtain ⟨hne, hmem⟩ := Finset.mem_erase.1 hd'
    exact (hg.ref d' hne).trans (h.dirRef d' hmem)
  · intro e' d' hd'
    rw [hpg] at hd'
    split at hd'
    · exact absurd hd' (by simp)
    · rename_i hne
      refine Finset.mem_erase.2 ⟨?_, h.dir e' d' hd'⟩
      rintro rfl
      exact hne (h.distinct e' e d' hd' hdir)
  · intro d' hd'
    obtain ⟨hne, hmem⟩ := Finset.mem_erase.1 hd'
    obtain ⟨e', he', hdir'⟩ := h.owner d' hmem
    have hee : e' ≠ e := by
      rintro rfl
      rw [hdir] at hdir'
      exact hne (Option.some_inj.1 hdir').symm
    exact ⟨e', he', (hpg e').trans ((if_neg hee).trans hdir')⟩
  · intro e₁ e₂ d' h₁ h₂
    rw [hpg] at h₁ h₂
    split at h₁
    · exact absurd h₁ (by simp)
    · split at h₂
      · exact absurd h₂ (by simp)
      · exact h.distinct e₁ e₂ d' h₁ h₂
  · intro e'
    rw [henvs]
    by_cases hee : e' = e
    · subst hee
      obtain ⟨la, lf, har⟩ := h.areas e'
      obtain ⟨lf', har'⟩ := vmaProcInit_areas har.ok
      rw [Vm.modSpace_self]
      exact ⟨[], lf', har'.congr rfl⟩
    · rw [Vm.modSpace_of_ne s _ hee]
      exact h.areas e'
  · intro e' hnone
    rw [henvs]
    by_cases hee : e' = e
    · subst hee
      obtain ⟨la, lf, har⟩ := h.areas e'
      obtain ⟨lf', har'⟩ := vmaProcInit_areas har.ok
      rw [Vm.modSpace_self]
      exact har'.lists.alloc
    · rw [hpg, if_neg hee] at hnone
      rw [Vm.modSpace_of_ne s _ hee]
      exact h.idle e' hnone

/-- The end of `env_free`, after the loop over the directory. -/
def freeDir (s : Vm) (e dir : ℕ) : Except Crash Vm := do
  let s ← decrefKva (s.modSpace e freedSpace) dir
  decrefKva s (s.envFrame e)

theorem envFreeVm_eq (hdir : s.pgdir e = some d) :
    envFreeVm s e = (List.range (pdx uTop)).foldlM (freePde e d) s >>= fun s => freeDir s e d := by
  rw [envFreeVm, hdir]
  rfl

/-- **What `env_free` leaves behind.** -/
structure Released (s s' : Vm) (D K : Finset ℕ) (l' : List ℕ) (e d : ℕ) : Prop where
  inv : VmInv s' (D.erase d) K l'
  npages : s'.mm.npages = s.mm.npages
  envs : s'.envs = (s.modSpace e freedSpace).envs
  refs : ∀ f ∈ K, s'.ref f = if f = s.envFrame e then s.ref f - 1 else s.ref f
  envFrame : s'.envFrame = s.envFrame
  image : s'.image = s.image
  aside : Aside s s' D d fun _ => True

/-- The directory is given back, and the slot's frame loses a reference that is not its last. -/
theorem freeDir_ends (h : VmInv s D K l) (hdir : s.pgdir e = some d)
    (hlow : ∀ i < pdx uTop, isPresent (s.mm.word d i) = false) (hslot : s.ref (s.envFrame e) ≠ 1) :
    Ends (fun _ => ¬ Runs s l)
      (fun s' => Released s s' D K (d :: l) e d ∧ (Runs s l → Runs s' (d :: l)))
        (freeDir s e d) := by
  have hd : d ∈ D := h.dir e d hdir
  have hheld := h.pt.held d hd
  have hbad : ∀ f < s.mm.npages, badFrame ≤ f → ¬ Runs s l := by
    intro f hf hb hruns
    exact absurd (hf.trans_le hruns.2) (not_lt.2 hb)
  obtain ⟨hK, hlt⟩ := h.slots e
  have hne : s.envFrame e ≠ d := fun heq => h.pt.away _ hK (heq ▸ hd)
  rw [freeDir, ends_bind]
  refine decrefKva_ends (s := s.modSpace e freedSpace) hheld.1 (fun hb _ => hbad d hheld.1 hb) ?_
  refine (decref_last (s := s.modSpace e freedSpace) h.pt.free hheld (h.dirRef d hd)).mono
    (fun _ hf => hf.elim) ?_
  rintro s₁ ⟨m, rfl, hg, hfree, hst⟩
  have hinv : VmInv { s.modSpace e freedSpace with mm := m } (D.erase d) K (d :: l) :=
    h.dropDir hdir hlow hg hfree rfl rfl rfl rfl
  have href : ∀ f ∈ K, (m.pages f).ppRef = s.ref f := by
    intro f hf
    refine hg.ref f ?_
    rintro rfl
    exact h.pt.away f hf hd
  have hmore : ({ s.modSpace e freedSpace with mm := m } : Vm).ref (s.envFrame e) ≠ 1 := by
    rw [Vm.ref, href _ hK]
    exact hslot
  refine @decrefKva_ends { s.modSpace e freedSpace with mm := m } (s.envFrame e) _ _
    (hlt.trans_eq hg.npages.symm)
    (fun hb _ => hbad _ hlt hb) ?_
  rw [decref_more hmore]
  have hwords : ∀ g ≠ d, ∀ k, m.word g k = s.mm.word g k :=
    fun g hne k => Mm.word_of_mem (hg.mem g hne) k
  have hothers : ∀ d' ∈ D, ¬ (d' = d ∧ True) → d' ∈ D.erase d := fun d' hd' hn =>
    Finset.mem_erase.2 ⟨fun hc => hn ⟨hc, True.intro⟩, hd'⟩
  refine ⟨⟨hinv.setRef hK _, hg.npages, rfl, fun f hf => ?_, rfl, rfl, fun d' hd' q hq hn => ?_,
    fun d' hd' q hq hn hP => ?_⟩,
    fun hruns => ⟨?_, ?_⟩⟩
  · refine (Vm.ppRef_setRef ..).trans ?_
    by_cases hfe : f = s.envFrame e
    · rw [if_pos hfe, if_pos hfe, hfe, Vm.ref, href _ hK]
    · rw [if_neg hfe, if_neg hfe]
      exact href f hf
  · exact h.pt.entry_dropDir hd hwords (hothers d' hd' hn) hq
  · refine hg.mem _ ?_
    intro hpg
    exact (h.held_of_present hd' hq hP).2.1 (hpg ▸ hd)
  · exact Steady.setRef (s := { s.modSpace e freedSpace with mm := m }) _ (hst hruns.1)
  · exact hg.npages.le.trans hruns.2

/-- **The memory part of `env_free`**, when the slot's frame does not lose its last reference. -/
theorem VmInv.release (h : VmInv s D K l) (hdir : s.pgdir e = some d)
    (hslot : s.ref (s.envFrame e) ≠ 1) :
    Ends (fun _ => True) (fun s' => ∃ l', Released s s' D K l' e d) (envFreeVm s e) := by
  rw [envFreeVm_eq hdir, ends_bind]
  generalize hn : pdx uTop = n
  refine (freePdes_ends h hdir hn.symm).post ?_
  rintro s₁ ⟨l₁, hs, hlow⟩
  rw [← hn] at hlow
  have hdir₁ : s₁.pgdir e = some d := by
    rw [Vm.pgdir, hs.space.envs]
    exact hdir
  have hslot₁ : s₁.ref (s₁.envFrame e) ≠ 1 := by
    rw [hs.space.envFrame, hs.refs _ (h.slots e).1]
    exact hslot
  refine (freeDir_ends hs.inv hdir₁ hlow hslot₁).mono (fun _ _ => True.intro) ?_
  rintro s₂ ⟨hr, -⟩
  refine ⟨d :: l₁, hr.inv, hr.npages.trans hs.npages, ?_, fun f hf => ?_,
    hr.envFrame.trans hs.space.envFrame,
    hr.image.trans hs.space.image, hs.aside.trans hr.aside⟩
  · rw [hr.envs, Vm.modSpace, Vm.modSpace, hs.space.envs]
  · rw [hr.refs f hf, hs.space.envFrame, hs.refs f hf]

/-- **`env_free` of an environment without page tables** does not stop. -/
theorem envFreeVm_empty (hdir : s.pgdir e = some d)
    (hlow : ∀ i < pdx uTop, isPresent (s.mm.word d i) = false) : envFreeVm s e = freeDir s e d := by
  have hloop : ∀ n, n ≤ pdx uTop → (List.range n).foldlM (freePde e d) s = Except.ok s := by
    intro n
    induction n with
    | zero => exact fun _ => rfl
    | succ n ih =>
        intro hn
        have hround : freePde e d s n = Except.ok s := by
          have habs : ¬ isPresent (s.pte ⟨d, n⟩) = true := by
            rw [Bool.not_eq_true]
            exact hlow n (by omega)
          exact if_neg habs
        rw [List.range_succ, List.foldlM_append, ih (by omega)]
        change (List.foldlM (freePde e d) s [n]) = _
        rw [List.foldlM_cons, hround]
        rfl
  rw [envFreeVm_eq hdir, hloop _ le_rfl]
  exact pure_bind s _

end Release

end Jos
