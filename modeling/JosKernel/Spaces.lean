/-
**The address spaces of all environments.**

One invariant over the page tables, the reference counts and the areas of every environment, that
the functions of `kern/env.c`, `kern/vma.c` and `kern/trap.c` keep as long as the areas are ones of
4 KB pages below `UTOP` with permissions that are only permissions.

Main definitions:

* `Jos.CleanPte`, `Jos.CleanWrite` — an entry with no flag but those, and one that maps the frame it
  was written for;
* `Jos.VmInv` — **the invariant**, for the directories in `D` and the frames `K` of the kernel;
* `Jos.Aside` — pages that are as before.

Main results:

* `Jos.VmInv.mappings_lt` — no frame has so many mappings that its counter is full;
* `Jos.VmInv.inserted`, `Jos.VmInv.removed`, `Jos.VmInv.take` — what happens to a page keeps the
  invariant.
-/

import Mathlib.Data.Finset.Card
import JosKernel.Env
import JosKernel.Fault
import JosKernel.PageMap
import JosKernel.Areas

set_option relaxedAutoImplicit false
set_option autoImplicit false

namespace Jos

open LinkedList Outcome

/-! ### Entries -/

/-- An entry with no flags outside `PTE_SYSCALL`. -/
def CleanPte (w : BitVec 32) : Prop := w &&& 0xFFF#32 &&& ~~~(permMask ||| pteP) = 0

theorem cleanPte_zero : CleanPte 0 := by
  unfold CleanPte
  decide

/-- The address in an entry that was put together from a frame and flags. -/
theorem pteAddr_page2pa_or (f : ℕ) {g : BitVec 32} (hg : g.toNat < 4096) :
    pteAddr (page2pa f ||| g) = page2pa f := by
  have hhigh : ∀ k, 12 ≤ k → g.getLsbD k = false := by
    intro k hk
    refine Nat.testBit_lt_two_pow (Nat.lt_of_lt_of_le hg ?_)
    have := Nat.pow_le_pow_right (by decide : 0 < 2) hk
    simpa using this
  rw [pteAddr_eq_shift]
  ext k hk
  simp only [BitVec.getElem_shiftLeft, BitVec.getElem_ushiftRight, page2pa, pgShift]
  by_cases hlow : k < 12
  · simp [hlow]
  · have hsum : 12 + (k - 12) = k := by omega
    have hbit := hhigh k (by omega)
    rw [BitVec.getLsbD_eq_getElem hk] at hbit
    simp [hlow, hsum, hbit, BitVec.getLsbD_eq_getElem hk]

theorem CleanPte.not_huge {w : BitVec 32} (h : CleanPte w) : isHuge w = false := by
  have hmask : (0xFFF#32 &&& ~~~(permMask ||| pteP)) &&& ptePS = ptePS := by decide
  unfold CleanPte at h
  rw [BitVec.and_assoc] at h
  rw [isHuge, ← hmask, ← BitVec.and_assoc, h]
  decide

theorem cleanPte_page2pa_or (f : ℕ) {g : BitVec 32}
    (hg : g &&& 0xFFF#32 &&& ~~~(permMask ||| pteP) = 0) :
    CleanPte (page2pa f ||| g) := by
  unfold CleanPte
  rw [page2pa_or_and f g (by decide)]
  exact hg

theorem cleanPte_tablePde (t : ℕ) : CleanPte (tablePde t) := by
  rw [tablePde_eq]
  exact cleanPte_page2pa_or t (by decide)

theorem insertPte_eq (pp : ℕ) (perm : BitVec 32) :
    insertPte pp perm = page2pa pp ||| (perm ||| pteP) :=
  BitVec.or_assoc ..

theorem CleanPerm.insertPte {perm : BitVec 32} (h : CleanPerm perm) (pp : ℕ) :
    CleanPte (insertPte pp perm) := by
  rw [insertPte_eq]
  refine cleanPte_page2pa_or pp ?_
  have hand : ∀ m : BitVec 32, m &&& permMask = 0 → perm &&& m = 0 := fun m hm => h.and_eq_zero hm
  rw [BitVec.and_assoc, BitVec.and_or_distrib_right, hand _ (by decide)]
  decide

theorem CleanPerm.or_present_lt {perm : BitVec 32} (h : CleanPerm perm) :
    (perm ||| pteP).toNat < 4096 := by
  rw [BitVec.toNat_or]
  exact Nat.or_lt_two_pow (n := 12) h.lt (by decide)

/-- **An entry that maps the frame it was written for**, with no flags outside `PTE_SYSCALL`. -/
def CleanWrite (w : PteWrite) : Prop := pteAddr w.pte = page2pa w.frame ∧ CleanPte w.pte

theorem cleanWrite_table {w : PteWrite} (h : w.pte = tablePde w.frame) : CleanWrite w := by
  rw [CleanWrite, h]
  refine ⟨?_, cleanPte_tablePde _⟩
  rw [tablePde_eq]
  exact pteAddr_page2pa_or _ (by decide)

theorem cleanWrite_insert {w : PteWrite} {perm : BitVec 32} (hperm : CleanPerm perm)
    (h : w.pte = insertPte w.frame perm) : CleanWrite w := by
  rw [CleanWrite, h]
  refine ⟨?_, hperm.insertPte _⟩
  rw [insertPte_eq]
  exact pteAddr_page2pa_or _ hperm.or_present_lt

/-! ### The invariant -/

/-- A frame is mapped at one virtual page only, in whatever directory. -/
def OneVpn (m : Mm) (D : Finset ℕ) : Prop :=
  ∀ d ∈ D, ∀ d' ∈ D, ∀ p p', p / 1024 < pdx uTop → p' / 1024 < pdx uTop →
    ∀ f, Maps (m.entry d p) f → Maps (m.entry d' p') f → p = p'

/-- The entries below `UTOP` have no flags outside `PTE_SYSCALL`. -/
def CleanEntries (m : Mm) (D : Finset ℕ) : Prop :=
  ∀ d ∈ D, ∀ p, p / 1024 < pdx uTop → CleanPte (m.entry d p)

/-- **The invariant of all address spaces.** `D` are the directories of the environments, `K` the
frames the kernel keeps for itself: frame 0, the frames of the environments' slots and its page
tables are among them. -/
structure VmInv (s : Vm) (D K : Finset ℕ) (l : List ℕ) : Prop where
  pt : PtInv s.mm D K l
  one : OneVpn s.mm D
  clean : CleanEntries s.mm D
  log : ∀ w ∈ s.written, CleanWrite w
  dirRef : ∀ d ∈ D, s.ref d = 1
  dir : ∀ e d, s.pgdir e = some d → d ∈ D
  owner : ∀ d ∈ D, ∃ e ≤ nEnv, s.pgdir e = some d
  distinct : ∀ e e' d, s.pgdir e = some d → s.pgdir e' = some d → e = e'
  areas : ∀ e, ∃ la lf, Areas (s.envs e) la lf
  idle : ∀ e, s.pgdir e = none → (s.envs e).allocVmaList = none
  slots : ∀ e, s.envFrame e ∈ K ∧ s.envFrame e < s.mm.npages
  kern : ∀ i < 1024, pdx uTop ≤ i → isPresent (s.kernPgdir i) = true →
    isHuge (s.kernPgdir i) = true ∨ pgnum (s.kernPgdir i) ∈ K
  zero : 0 ∈ K

/-- A frame that is mapped at one page only has at most one mapping for each directory. -/
theorem OneVpn.mappings_le {m : Mm} {D : Finset ℕ} (h : OneVpn m D) (f : ℕ) :
    m.mappings D f ≤ D.card := by
  refine Finset.card_le_card_of_injOn Prod.fst (fun x hx => ?_) fun x hx y hy heq => ?_
  · exact (mem_userPages.1 (Finset.mem_filter.1 hx).1).1
  · obtain ⟨hx₁, hx₂⟩ := Finset.mem_filter.1 hx
    obtain ⟨hy₁, hy₂⟩ := Finset.mem_filter.1 hy
    obtain ⟨hxD, hxp⟩ := mem_userPages.1 hx₁
    obtain ⟨hyD, hyp⟩ := mem_userPages.1 hy₁
    exact Prod.ext heq (h _ hxD _ hyD _ _ hxp hyp f hx₂ hy₂)

namespace VmInv

variable {s s' : Vm} {D K : Finset ℕ} {l l' : List ℕ}

theorem card_le (h : VmInv s D K l) : D.card ≤ nEnv + 1 := by
  have hsub : D ⊆ (Finset.range (nEnv + 1)).image fun e => (s.pgdir e).getD 0 := by
    intro d hd
    obtain ⟨e, he, hdir⟩ := h.owner d hd
    exact Finset.mem_image.2 ⟨e, Finset.mem_range.2 (by omega), by rw [hdir]; rfl⟩
  refine (Finset.card_le_card hsub).trans (Finset.card_image_le.trans ?_)
  rw [Finset.card_range]

/-- **No counter is full.** -/
theorem mappings_lt (h : VmInv s D K l) (f : ℕ) : s.mm.mappings D f < 65536 := by
  have hle := h.one.mappings_le f
  have hcard := h.card_le
  unfold nEnv at hcard
  omega

/-! ### Changes of pages -/

/-- The same environments, with other page tables. -/
theorem ofPt (h : VmInv s D K l) (hpt : PtInv s'.mm D K l') (hnp : s'.mm.npages = s.mm.npages)
    (hone : OneVpn s'.mm D) (hclean : CleanEntries s'.mm D) (hlog : LogGrows CleanWrite s s')
    (hrefs : ∀ d ∈ D, s'.ref d = s.ref d) (hspace : SameSpaces s s') : VmInv s' D K l' where
  pt := hpt
  one := hone
  clean := hclean
  log w hw := (hlog w hw).elim (h.log w) id
  dirRef d hd := (hrefs d hd).trans (h.dirRef d hd)
  dir e d hd := by
    rw [Vm.pgdir, hspace.envs] at hd
    exact h.dir e d hd
  owner d hd := by
    obtain ⟨e, he, hdir⟩ := h.owner d hd
    rw [Vm.pgdir, ← hspace.envs] at hdir
    exact ⟨e, he, hdir⟩
  distinct e e' d hd hd' := by
    rw [Vm.pgdir, hspace.envs] at hd hd'
    exact h.distinct e e' d hd hd'
  areas e := by
    rw [hspace.envs]
    exact h.areas e
  idle e he := by
    rw [hspace.envs]
    rw [Vm.pgdir, hspace.envs] at he
    exact h.idle e he
  slots e := by
    rw [hspace.envFrame, hnp]
    exact h.slots e
  kern i hi := by
    rw [hspace.kernPgdir]
    exact h.kern i hi
  zero := h.zero

/-- The entries are as before. -/
theorem ofSame (h : VmInv s D K l) (hpt : PtInv s'.mm D K l') (hnp : s'.mm.npages = s.mm.npages)
    (hentry : ∀ d ∈ D, ∀ p, p / 1024 < pdx uTop → s'.mm.entry d p = s.mm.entry d p)
    (hlog : LogGrows CleanWrite s s') (hrefs : ∀ d ∈ D, s'.ref d = s.ref d)
    (hspace : SameSpaces s s') :
    VmInv s' D K l' := by
  refine h.ofPt hpt hnp ?_ ?_ hlog hrefs hspace
  · intro d hd d' hd' p p' hp hp' f hm hm'
    rw [hentry d hd p hp] at hm
    rw [hentry d' hd' p' hp'] at hm'
    exact h.one d hd d' hd' p p' hp hp' f hm hm'
  · intro d hd p hp
    rw [hentry d hd p hp]
    exact h.clean d hd p hp

/-- One entry gets a new value. -/
theorem ofWrite (h : VmInv s D K l) (hpt : PtInv s'.mm D K l') (hnp : s'.mm.npages = s.mm.npages)
    {d p : ℕ} {w : BitVec 32}
    (hentry : ∀ d' ∈ D, ∀ q, q / 1024 < pdx uTop →
      s'.mm.entry d' q = if d' = d ∧ q = p then w else s.mm.entry d' q) (hw : CleanPte w)
    (hone : ∀ d' ∈ D, ∀ q, q / 1024 < pdx uTop → ∀ f, Maps w f → Maps (s.mm.entry d' q) f → q = p)
    (hlog : LogGrows CleanWrite s s') (hrefs : ∀ d ∈ D, s'.ref d = s.ref d)
    (hspace : SameSpaces s s') : VmInv s' D K l' := by
  refine h.ofPt hpt hnp ?_ ?_ hlog hrefs hspace
  · intro d₁ hd₁ d₂ hd₂ p₁ p₂ hp₁ hp₂ f hm₁ hm₂
    rw [hentry d₁ hd₁ p₁ hp₁] at hm₁
    rw [hentry d₂ hd₂ p₂ hp₂] at hm₂
    by_cases h₁ : d₁ = d ∧ p₁ = p
    · rw [if_pos h₁] at hm₁
      by_cases h₂ : d₂ = d ∧ p₂ = p
      · exact h₁.2.trans h₂.2.symm
      · rw [if_neg h₂] at hm₂
        exact h₁.2.trans (hone d₂ hd₂ p₂ hp₂ f hm₁ hm₂).symm
    · rw [if_neg h₁] at hm₁
      by_cases h₂ : d₂ = d ∧ p₂ = p
      · rw [if_pos h₂] at hm₂
        exact (hone d₁ hd₁ p₁ hp₁ f hm₂ hm₁).trans h₂.2.symm
      · rw [if_neg h₂] at hm₂
        exact h.one d₁ hd₁ d₂ hd₂ p₁ p₂ hp₁ hp₂ f hm₁ hm₂
  · intro d' hd' q hq
    rw [hentry d' hd' q hq]
    split
    · exact hw
    · exact h.clean d' hd' q hq

/-- A frame is handed out. -/
theorem take (h : VmInv s D K l) {req : BitVec 32} {pp : ℕ} {m : Mm} (hpp : pp ∈ l)
    (ht : Taken s.mm m req pp) (hfree : FreeInv m (l.erase pp)) :
    VmInv { s with mm := m } D K (l.erase pp) ∧ m.Held pp ∧ m.Plain D K pp ∧
      m.mappings D pp = 0 := by
  obtain ⟨hpt, hentry⟩ := h.pt.take hpp ht hfree
  have hplain := h.pt.plain_free hpp
  have hdir : ∀ d ∈ D, ∀ i, m.word d i = s.mm.word d i := by
    intro d hd i
    refine Mm.word_of_mem (ht.mem d ?_) i
    rintro rfl
    exact hplain.1 hd
  refine ⟨?_, ht.held (h.pt.free.listed pp hpp).1, (PtInv.plain_congr hdir).2 hplain, ?_⟩
  · exact h.ofSame hpt ht.npages (fun d hd p hp => hentry d hd p (PtInv.lt_pow_of_low hp))
      (.of_eq rfl)
      (fun d _ => ht.ref d) ⟨rfl, rfl, rfl, rfl⟩
  · rw [mappings_congr fun d hd p hp => hentry d hd p (PtInv.lt_pow_of_low hp)]
    exact h.pt.mappings_free hpp

/-- The page is mapped nowhere but at `p`. -/
def OnlyAt (m : Mm) (D : Finset ℕ) (pp p : ℕ) : Prop :=
  ∀ d ∈ D, ∀ q, q / 1024 < pdx uTop → Maps (m.entry d q) pp → q = p

theorem onlyAt_of_unmapped {m : Mm} {pp : ℕ} (h : m.mappings D pp = 0) (p : ℕ) :
    OnlyAt m D pp p := by
  intro d hd q hq hmap
  have := mappings_pos hd hq hmap
  omega

theorem onlyAt_of_mapped (h : VmInv s D K l) {d p pp : ℕ} (hd : d ∈ D) (hp : p / 1024 < pdx uTop)
    (hmap : Maps (s.mm.entry d p) pp) : OnlyAt s.mm D pp p :=
  fun d' hd' q hq hm => h.one d' hd' d hd q p hq hp pp hm hmap

/-- **`page_insert`** of a page that is not mapped elsewhere. -/
theorem inserted (h : VmInv s D K l) {d pp : ℕ} {va perm : BitVec 32} (hd : d ∈ D) (hva : va < uTop)
    (hheld : s.mm.Held pp) (hplain : s.mm.Plain D K pp) (honly : OnlyAt s.mm D pp (vpn va))
    (hperm : CleanPerm perm) :
    Ends (fun _ => True)
      (fun r => (r = (false, s) ∧ l = []) ∨
        (r.1 = true ∧ ∃ l', VmInv r.2 D K l' ∧ Inserted s r.2 D K l l' d pp va perm))
      (pageInsert s (some d) (some pp) va perm) := by
  have hzero : pp ≠ 0 := by
    rintro rfl
    exact hplain.2.1 h.zero
  refine (pageInsert_ends h.pt hd hva hheld hplain hzero hperm.lt hperm.not_present hperm.not_huge
    h.mappings_lt).mono (fun _ _ => True.intro) ?_
  rintro r (hr | ⟨hr, l', hins⟩)
  · exact Or.inl hr
  · refine Or.inr ⟨hr, l', ?_, hins⟩
    have hw := insertPte_maps hheld.lt_pow hperm.lt
    refine h.ofWrite hins.inv hins.npages (d := d) (p := vpn va) (w := insertPte pp perm) ?_
      (hperm.insertPte pp) ?_ ?_
      (fun d hd => hins.refs d (Or.inl hd)) hins.space
    · intro d' hd' q hq
      split
      · rename_i heq
        obtain ⟨rfl, rfl⟩ := heq
        exact hins.entry
      · rename_i hne
        exact hins.others d' hd' q (PtInv.lt_pow_of_low hq) hne (h.pt.not_window_of_low hd' hq)
    · intro d' hd' q hq f hf hm
      obtain rfl : pp = f := hw.2.symm.trans hf.2
      exact honly d' hd' q hq hm
    · refine hins.log.mono fun w hw => ?_
      exact hw.elim cleanWrite_table fun hw => cleanWrite_insert hperm hw.2

/-- **`page_remove`** of a page that is mapped. -/
theorem removed (h : VmInv s D K l) {d t : ℕ} {va : BitVec 32} (ht : s.mm.Table D d (pdx va) t)
    (hP : isPresent (s.mm.word t (ptx va)) = true) :
    Ends (fun _ => True) (fun s' => ∃ l', VmInv s' D K l' ∧ Removed s s' D K l l' d va)
      (pageRemove s (some d) va) := by
  refine (pageRemove_ends h.pt ht hP (h.mappings_lt _)).mono (fun _ _ => True.intro) ?_
  rintro s' ⟨l', hrm⟩
  refine ⟨l', ?_, hrm⟩
  refine h.ofWrite hrm.inv hrm.npages (d := d) (p := vpn va) (w := 0) ?_ cleanPte_zero ?_
    (.of_eq hrm.log)
    (fun d hd => hrm.refs d (Or.inl hd)) hrm.space
  · exact fun d' hd' q hq => hrm.rewrites d' hd' q (PtInv.lt_pow_of_low hq)
  · exact fun _ _ _ _ f hf => absurd hf (not_maps_zero f)

/-- A page table is looked up, or added. -/
theorem walked (h : VmInv s D K l) {d : ℕ} {va : BitVec 32} (hd : d ∈ D) (hva : va < uTop) :
    Ends (fun _ => True)
      (fun r => (r = (none, s) ∧ l = []) ∨ ∃ t l', r.1 = some ⟨t, ptx va⟩ ∧ VmInv r.2 D K l' ∧
        Walked s r.2 D K l l' d (pdx va) t)
      (pgdirWalk s (some d) va .normal) := by
  refine (pgdirWalk_ends h.pt hd (pdx_lt_of_lt hva)).mono (fun _ _ => True.intro) ?_
  rintro r (hr | ⟨t, l', hr, hwalk⟩)
  · exact Or.inl hr
  · refine Or.inr ⟨t, l', hr, ?_, hwalk⟩
    refine h.ofSame hwalk.inv hwalk.npages ?_ (hwalk.log.mono fun _ => cleanWrite_table)
      (fun d hd => hwalk.refs d (Or.inl hd)) hwalk.space
    exact fun d hd p hp => hwalk.entry d hd p (PtInv.lt_pow_of_low hp)
      (h.pt.not_window_of_low hd hp)

/-- Bytes of pages are written. -/
theorem writeBytes (h : VmInv s D K l) {m : ℕ → ℕ → BitVec 8}
    (hm : ∀ g, ¬ s.mm.Plain D K g → m g = s.mm.mem g) :
    VmInv { s with mm := { s.mm with mem := m } } D K l := by
  have hword : ∀ g, PtInv.Reads s.mm D K g → ∀ k, ({ s.mm with mem := m } : Mm).word g k =
      s.mm.word g k :=
    fun g hg k => Mm.word_of_mem (hm g (PtInv.not_plain_of_reads hg)) k
  have hfree : FreeInv { s.mm with mem := m } l := h.pt.free.setMem m
  refine h.ofSame (h.pt.same hword rfl hfree h.pt.kept (fun g hg => hg.congr rfl rfl) fun _ _ =>
    rfl) rfl ?_
    (.of_eq rfl) (fun _ _ => rfl) ⟨rfl, rfl, rfl, rfl⟩
  exact fun d hd p hp => h.pt.entry_same hword hd (PtInv.lt_pow_of_low hp)

/-- Only the lists of pages in use change. -/
theorem lruOnly (h : VmInv s D K l) {m : Mm} (hlru : LruOnly s.mm m) :
    VmInv { s with mm := m } D K l := by
  have hword : ∀ g, PtInv.Reads s.mm D K g → ∀ k, m.word g k = s.mm.word g k :=
    fun g _ k => Mm.word_of_mem (congrFun hlru.mem g) k
  refine h.ofSame (h.pt.same hword hlru.npages (h.pt.free.lruOnly hlru) h.pt.kept
    (fun g hg => hg.congr hlru.npages (hlru.flags g)) fun g _ => hlru.ref g) hlru.npages ?_ (.of_eq
      rfl)
    (fun f _ => hlru.ref f) ⟨rfl, rfl, rfl, rfl⟩
  exact fun d hd p hp => h.pt.entry_same hword hd (PtInv.lt_pow_of_low hp)

/-- The areas of an environment change, and its directory stays. -/
theorem modSpace (h : VmInv s D K l) (e : ℕ) {f : Space → Space}
    (hdir : (f (s.envs e)).pgdir = (s.envs e).pgdir) (hareas : ∃ la lf, Areas (f (s.envs e)) la lf)
    (hidle : s.pgdir e = none → (f (s.envs e)).allocVmaList = none) :
    VmInv (s.modSpace e f) D K l := by
  have hpg : ∀ e', (s.modSpace e f).pgdir e' = s.pgdir e' := by
    intro e'
    by_cases he : e' = e
    · subst he
      exact (congrArg Space.pgdir (Function.update_self ..)).trans hdir
    · exact congrArg Space.pgdir (Function.update_of_ne he ..)
  refine ⟨h.pt, h.one, h.clean, h.log, h.dirRef, fun e d hd => ?_, fun d hd => ?_,
    fun e e' d hd hd' => ?_,
    fun e' => ?_, fun e' hnone => ?_, h.slots, h.kern, h.zero⟩
  · rw [hpg] at hd
    exact h.dir e d hd
  · obtain ⟨e', he', hd'⟩ := h.owner d hd
    exact ⟨e', he', (hpg e').trans hd'⟩
  · rw [hpg] at hd hd'
    exact h.distinct e e' d hd hd'
  · by_cases he : e' = e
    · subst he
      rw [Vm.modSpace_self]
      exact hareas
    · rw [Vm.modSpace_of_ne s f he]
      exact h.areas e'
  · rw [hpg] at hnone
    by_cases he : e' = e
    · subst he
      rw [Vm.modSpace_self]
      exact hidle hnone
    · rw [Vm.modSpace_of_ne s f he]
      exact h.idle e' hnone

end VmInv

/-! ### Pages that are left alone -/

/-- The pages of `d` outside `P`, and those of the other directories, are as before. -/
structure Aside (s s' : Vm) (D : Finset ℕ) (d : ℕ) (P : ℕ → Prop) : Prop where
  entry : ∀ d' ∈ D, ∀ q, q / 1024 < pdx uTop → ¬ (d' = d ∧ P q) → s'.mm.entry d' q = s.mm.entry d' q
  mem : ∀ d' ∈ D, ∀ q, q / 1024 < pdx uTop → ¬ (d' = d ∧ P q) → isPresent (s.mm.entry d' q) = true →
    s'.mm.mem (pgnum (s.mm.entry d' q)) = s.mm.mem (pgnum (s.mm.entry d' q))

section Aside

variable {s s' s'' : Vm} {D K : Finset ℕ} {l l' : List ℕ} {d : ℕ} {P : ℕ → Prop}

theorem Aside.refl (s : Vm) (D : Finset ℕ) (d : ℕ) (P : ℕ → Prop) : Aside s s D d P :=
  ⟨fun _ _ _ _ _ => rfl, fun _ _ _ _ _ _ => rfl⟩

theorem Aside.trans (h : Aside s s' D d P) (h' : Aside s' s'' D d P) : Aside s s'' D d P where
  entry d' hd' q hq hn := (h'.entry d' hd' q hq hn).trans (h.entry d' hd' q hq hn)
  mem d' hd' q hq hn hP := by
    have heq := h.entry d' hd' q hq hn
    have hmem := h'.mem d' hd' q hq hn (heq.symm ▸ hP)
    rw [heq] at hmem
    exact hmem.trans (h.mem d' hd' q hq hn hP)

theorem Aside.mono (h : Aside s s' D d P) {Q : ℕ → Prop} (hPQ : ∀ q, P q → Q q) :
    Aside s s' D d Q :=
  ⟨fun d' hd' q hq hn => h.entry d' hd' q hq fun hc => hn ⟨hc.1, hPQ q hc.2⟩,
    fun d' hd' q hq hn => h.mem d' hd' q hq fun hc => hn ⟨hc.1, hPQ q hc.2⟩⟩

/-- A frame that an entry maps is in use and no page table. -/
theorem VmInv.held_of_present (h : VmInv s D K l) {q : ℕ} (hd : d ∈ D) (hq : q / 1024 < pdx uTop)
    (hP : isPresent (s.mm.entry d q) = true) :
    s.mm.Held (pgnum (s.mm.entry d q)) ∧ s.mm.Plain D K (pgnum (s.mm.entry d q)) :=
  h.pt.held_of_mapped (mappings_pos hd hq ⟨hP, rfl⟩)

/-- Pages whose entries are as before are left alone where the frames that stay in use keep their
bytes. -/
theorem VmInv.aside (h : VmInv s D K l) (h' : VmInv s' D K l')
    (hentry : ∀ d' ∈ D, ∀ q, q / 1024 < pdx uTop → ¬ (d' = d ∧ P q) →
      s'.mm.entry d' q = s.mm.entry d' q)
    (hmem : ∀ f, s.mm.Held f → s.mm.Plain D K f → s'.mm.Held f → s'.mm.mem f = s.mm.mem f) :
      Aside s s' D d P := by
  refine ⟨hentry, fun d' hd' q hq hn hP => ?_⟩
  obtain ⟨hheld, hplain⟩ := h.held_of_present hd' hq hP
  have heq := hentry d' hd' q hq hn
  obtain ⟨hheld', -⟩ := h'.held_of_present hd' hq (heq.symm ▸ hP)
  rw [heq] at hheld'
  exact hmem _ hheld hplain hheld'

/-- `page_remove` and the other pages. -/
theorem Removed.aside {va : BitVec 32} (h : Removed s s' D K l l' d va) (hs : VmInv s D K l)
    (hs' : VmInv s' D K l') :
    Aside s s' D d (· = vpn va) := by
  refine hs.aside hs' (fun d' hd' q hq hn => ?_) fun f _ hplain hheld => h.mem f hplain hheld
  exact (h.rewrites d' hd' q (PtInv.lt_pow_of_low hq)).trans (if_neg hn)

end Aside

end Jos
