/-
**The pages of the environments as they see them.**

What an environment sees of a page is the bytes of the frame that its entry maps. Two environments
may map the same frame as long as neither may write to it, so a write changes what one of them sees
and nothing else.

Main definitions:

* `Jos.Keeps` — what the handling of a page fault leaves alone;
* `Jos.Mm.cell` — a byte of a page, as a directory maps it;
* `Jos.Unshared` — a page that may be written to is mapped by one directory only;
* `Jos.Served` — what is true after work on some pages of one directory.

Main results:

* `Jos.Aside.cell` — pages that are left alone look the same;
* `Jos.Unshared.rewrites`, `Jos.Inserted.unshared` — entries that are written.
-/

import JosKernel.SpaceFork

set_option relaxedAutoImplicit false
set_option autoImplicit false

namespace Jos

open LinkedList Outcome

/-! ### What demand paging leaves alone -/

/-- **Nothing has changed but pages and the counters of pages**: the areas and directories of the
environments, and the reference counts of the frames `K` of the kernel, are as before. -/
structure Keeps (s s' : Vm) (K : Finset ℕ) : Prop where
  npages : s'.mm.npages = s.mm.npages
  lists : ∀ e, (s'.envs e).lists = (s.envs e).lists
  pgdir : ∀ e, s'.pgdir e = s.pgdir e
  refs : ∀ f ∈ K, s'.ref f = s.ref f
  image : s'.image = s.image
  envFrame : s'.envFrame = s.envFrame

section Keeps

variable {s s' s'' : Vm} {D K : Finset ℕ} {l l' : List ℕ} {d : ℕ} {P : ℕ → Prop}

theorem Keeps.refl (s : Vm) (K : Finset ℕ) : Keeps s s K :=
  ⟨rfl, fun _ => rfl, fun _ => rfl, fun _ _ => rfl, rfl, rfl⟩

theorem Keeps.trans (h : Keeps s s' K) (h' : Keeps s' s'' K) : Keeps s s'' K :=
  ⟨h'.npages.trans h.npages, fun e => (h'.lists e).trans (h.lists e),
    fun e => (h'.pgdir e).trans (h.pgdir e),
    fun f hf => (h'.refs f hf).trans (h.refs f hf), h'.image.trans h.image,
      h'.envFrame.trans h.envFrame⟩

theorem Keeps.ofSpaces (hsp : SameSpaces s s') (hnp : s'.mm.npages = s.mm.npages)
    (hrefs : ∀ f ∈ K, s'.ref f = s.ref f) : Keeps s s' K where
  npages := hnp
  lists e := by rw [hsp.envs]
  pgdir e := by rw [Vm.pgdir, hsp.envs]; rfl
  refs := hrefs
  image := hsp.image
  envFrame := hsp.envFrame

theorem Keeps.vma (h : Keeps s s' K) (e i : ℕ) : s'.vma e i = s.vma e i :=
  congrArg (fun p : (ℕ → Vma) × Option ℕ × Option ℕ => p.1 i) (h.lists e)

/-- The counter of pages of an environment. -/
theorem keeps_addPages (s : Vm) (e : ℕ) (n : BitVec 32) : Keeps s (addPages s e n) K where
  npages := rfl
  lists e' := by
    by_cases he : e' = e
    · subst he
      rw [addPages, Vm.modSpace_self]
      rfl
    · rw [addPages, Vm.modSpace_of_ne s _ he]
  pgdir e' := by
    by_cases he : e' = e
    · subst he
      rw [Vm.pgdir, addPages, Vm.modSpace_self]
      rfl
    · rw [Vm.pgdir, addPages, Vm.modSpace_of_ne s _ he]
      rfl
  refs _ _ := rfl
  image := rfl
  envFrame := rfl

theorem VmInv.addPages (h : VmInv s D K l) (e : ℕ) (n : BitVec 32) :
    VmInv (addPages s e n) D K l := by
  obtain ⟨la, lf, har⟩ := h.areas e
  exact h.modSpace e rfl ⟨la, lf, har.congr rfl⟩ fun hnone => h.idle e hnone

/-- `page_insert` and the pages of others. -/
theorem Inserted.aside {pp : ℕ} {va perm : BitVec 32} (h : Inserted s s' D K l l' d pp va perm)
    (hs : VmInv s D K l) (hs' : VmInv s' D K l') : Aside s s' D d (· = vpn va) := by
  refine hs.aside hs' (fun d' hd' q hq hn => ?_) h.mem
  exact h.others d' hd' q (PtInv.lt_pow_of_low hq) hn (hs.pt.not_window_of_low hd' hq)

end Keeps

/-! ### Bytes of pages -/

/-- **A byte of a page**, as the directory maps it. -/
def Mm.cell (m : Mm) (d q o : ℕ) : Option (BitVec 8) :=
  if isPresent (m.entry d q) then some (m.mem (pgnum (m.entry d q)) o) else none

/-- The flags in a new entry are those that it was made with. -/
theorem insertPte_and {pp : ℕ} {perm m : BitVec 32} (hm : m.toNat < 4096) (hP : pteP &&& m = 0) :
    insertPte pp perm &&& m = perm &&& m := by
  rw [insertPte_eq, page2pa_or_and _ _ hm, BitVec.and_or_distrib_right, hP]
  exact BitVec.or_zero

theorem insertPte_isPresent (pp : ℕ) (perm : BitVec 32) : isPresent (insertPte pp perm) = true := by
  rw [insertPte_eq, isPresent, page2pa_or_and _ _ (by decide), bne_iff_ne]
  intro hz
  have hbit := congrArg (fun w => BitVec.getLsbD w 0) hz
  simp [pteP] at hbit

theorem insertPte_isUser (pp : ℕ) (perm : BitVec 32) :
    isUser (insertPte pp perm) = isUser perm := by
  rw [isUser, insertPte_and (by decide) (by decide), ← isUser]

theorem insertPte_isWritable (pp : ℕ) (perm : BitVec 32) :
    isWritable (insertPte pp perm) = isWritable perm := by
  rw [isWritable, insertPte_and (by decide) (by decide), ← isWritable]

theorem isUser_or_pteW (perm : BitVec 32) : isUser (perm ||| pteW) = isUser perm := by
  rw [isUser, or_flag_and (by decide), ← isUser]

section Cells

variable {m m' : Mm} {d q o : ℕ}

theorem Mm.cell_of_maps {f : ℕ} (h : Maps (m.entry d q) f) : m.cell d q o = some (m.mem f o) := by
  rw [Mm.cell, if_pos h.1, h.2]

/-- The same frame, with the same bytes. -/
theorem Mm.cell_congr {d' : ℕ} (hP : isPresent (m'.entry d' q) = isPresent (m.entry d q))
    (hmem : isPresent (m.entry d q) = true → m'.mem (pgnum (m'.entry d' q)) =
      m.mem (pgnum (m.entry d q))) :
    m'.cell d' q o = m.cell d q o := by
  unfold Mm.cell
  rw [hP]
  split
  · rename_i h
    rw [hmem h]
  · rfl

end Cells

/-- Pages that are left alone look the same. -/
theorem Aside.cell {s s' : Vm} {D : Finset ℕ} {d : ℕ} {P : ℕ → Prop} (h : Aside s s' D d P)
    {d' q : ℕ} (hd : d' ∈ D) (hq : q / 1024 < pdx uTop) (hn : ¬ (d' = d ∧ P q)) (o : ℕ) :
    s'.mm.cell d' q o = s.mm.cell d' q o := by
  have hentry := h.entry d' hd q hq hn
  refine Mm.cell_congr (congrArg isPresent hentry) fun hP => ?_
  rw [hentry]
  exact h.mem d' hd q hq hn hP

/-- Pages with the same entries that look the same. -/
theorem Aside.of_cells {s s' : Vm} {D : Finset ℕ} {d : ℕ} {P : ℕ → Prop}
    (hentry : ∀ d' ∈ D, ∀ q, q / 1024 < pdx uTop → ¬ (d' = d ∧ P q) →
      s'.mm.entry d' q = s.mm.entry d' q)
    (hcell : ∀ d' ∈ D, ∀ q, q / 1024 < pdx uTop → ¬ (d' = d ∧ P q) →
      ∀ o, s'.mm.cell d' q o = s.mm.cell d' q o) :
    Aside s s' D d P where
  entry := hentry
  mem d' hd q hq hn hP := by
    have heq := hentry d' hd q hq hn
    refine funext fun o => ?_
    have hc := hcell d' hd q hq hn o
    rw [Mm.cell, Mm.cell, heq, if_pos hP, if_pos hP] at hc
    exact Option.some.inj hc

/-! ### Pages that may be written to -/

/-- **A page that may be written to is mapped by one directory only.** -/
def Unshared (m : Mm) (D : Finset ℕ) : Prop :=
  ∀ d ∈ D, ∀ d' ∈ D, d' ≠ d → ∀ q, q / 1024 < pdx uTop → isPresent (m.entry d q) = true →
    Maps (m.entry d' q) (pgnum (m.entry d q)) → isWritable (m.entry d q) = false

section Unshared

variable {m m' : Mm} {D : Finset ℕ} {d p : ℕ}

theorem Unshared.congr (h : Unshared m D)
    (hentry : ∀ d ∈ D, ∀ q, q / 1024 < pdx uTop → m'.entry d q = m.entry d q) :
    Unshared m' D := by
  intro d hd d' hd' hne q hq
  rw [hentry d hd q hq, hentry d' hd' q hq]
  exact h d hd d' hd' hne q hq

/-- An entry is written: where other directories map the same frame, none may write to it. -/
theorem Unshared.rewrites (h : Unshared m D) {w : BitVec 32}
    (hentry : ∀ d' ∈ D, ∀ q, q / 1024 < pdx uTop → m'.entry d' q = if d' = d ∧ q = p then w
      else m.entry d' q)
    (hnew : isPresent w = true → ∀ d' ∈ D, d' ≠ d → Maps (m.entry d' p) (pgnum w) →
      isWritable w = false ∧ isWritable (m.entry d' p) = false) : Unshared m' D := by
  intro d₁ hd₁ d₂ hd₂ hne q hq hP hmap
  rw [hentry d₁ hd₁ q hq] at hP hmap ⊢
  rw [hentry d₂ hd₂ q hq] at hmap
  by_cases h₁ : d₁ = d ∧ q = p
  · have h₂ : ¬ (d₂ = d ∧ q = p) := fun hc => hne (hc.1.trans h₁.1.symm)
    rw [if_pos h₁] at hP
    rw [if_neg h₂, if_pos h₁, h₁.2] at hmap
    rw [if_pos h₁]
    exact (hnew hP d₂ hd₂ (h₁.1 ▸ hne) hmap).1
  · rw [if_neg h₁] at hP ⊢
    by_cases h₂ : d₂ = d ∧ q = p
    · rw [if_pos h₂, if_neg h₁] at hmap
      rw [h₂.2] at hP hmap ⊢
      exact (hnew hmap.1 d₁ hd₁ (fun hc => hne (h₂.1.trans hc.symm)) ⟨hP, hmap.2.symm⟩).2
    · rw [if_neg h₂, if_neg h₁] at hmap
      exact h d₁ hd₁ d₂ hd₂ hne q hq hP hmap

/-- The only mapping of a frame. -/
theorem eq_of_mappings_one {f d' q : ℕ} (h : m.mappings D f = 1) (hd : d ∈ D)
    (hp : p / 1024 < pdx uTop) (hd' : d' ∈ D) (hq : q / 1024 < pdx uTop)
    (hmap : Maps (m.entry d p) f) (hmap' : Maps (m.entry d' q) f) : d' = d ∧ q = p := by
  have hone := Finset.card_eq_one.1 h
  obtain ⟨x, hx⟩ := hone
  have hmem : ∀ d q, d ∈ D → q / 1024 < pdx uTop → Maps (m.entry d q) f → (d, q) = x :=
    fun d q hd hq hm =>
    Finset.mem_singleton.1 (hx ▸ Finset.mem_filter.2 ⟨mem_userPages.2 ⟨hd, hq⟩, hm⟩)
  have heq := (hmem d' q hd' hq hmap').trans (hmem d p hd hp hmap).symm
  exact ⟨congrArg Prod.fst heq, congrArg Prod.snd heq⟩

end Unshared

/-- `page_insert` of a frame that no other directory maps there, or that nobody may write to. -/
theorem Inserted.unshared {s s' : Vm} {D K : Finset ℕ} {l l' : List ℕ} {d pp : ℕ}
    {va perm : BitVec 32}
    (h : Inserted s s' D K l l' d pp va perm) (hs : VmInv s D K l) (hun : Unshared s.mm D)
    (hpp : pp < 2 ^ 20)
    (hperm : perm.toNat < 4096) (hnew : ∀ d' ∈ D, d' ≠ d → Maps (s.mm.entry d' (vpn va)) pp →
      isWritable perm = false ∧ isWritable (s.mm.entry d' (vpn va)) = false) :
        Unshared s'.mm D := by
  refine hun.rewrites (d := d) (p := vpn va) (w := insertPte pp perm) (fun d' hd' q hq => ?_)
    fun _ => ?_
  · split
    · rename_i heq
      rw [heq.1, heq.2, h.entry]
    · rename_i hne
      exact h.others d' hd' q (PtInv.lt_pow_of_low hq) hne (hs.pt.not_window_of_low hd' hq)
  · rw [(insertPte_maps hpp hperm).2, insertPte_isWritable]
    exact hnew

/-! ### Work on the pages of one directory -/

/-- **Work on the pages `P` of the directory `d`**: the invariant holds, everything else is as
before, and pages that may be written to are not shared. -/
structure Served (s s' : Vm) (D K : Finset ℕ) (l' : List ℕ) (d : ℕ) (P : ℕ → Prop) : Prop where
  inv : VmInv s' D K l'
  keeps : Keeps s s' K
  aside : Aside s s' D d P
  unshared : Unshared s.mm D → Unshared s'.mm D

section Served

variable {s s' s'' : Vm} {D K : Finset ℕ} {l l' l'' : List ℕ} {d : ℕ} {P Q : ℕ → Prop}

theorem Served.refl (h : VmInv s D K l) : Served s s D K l d P :=
  ⟨h, Keeps.refl s K, Aside.refl s D d P, id⟩

theorem Served.trans (h : Served s s' D K l' d P) (h' : Served s' s'' D K l'' d P) :
    Served s s'' D K l'' d P :=
  ⟨h'.inv, h.keeps.trans h'.keeps, h.aside.trans h'.aside, fun hun => h'.unshared (h.unshared hun)⟩

theorem Served.mono (h : Served s s' D K l' d P) (hPQ : ∀ q, P q → Q q) : Served s s' D K l' d Q :=
  ⟨h.inv, h.keeps, h.aside.mono hPQ, h.unshared⟩

theorem entry_of_mem {m m' : Mm} (h : m'.mem = m.mem) (d q : ℕ) : m'.entry d q = m.entry d q := by
  have hword : ∀ g k, m'.word g k = m.word g k := fun g k => Mm.word_of_mem (congrFun h g) k
  simp only [Mm.entry, hword]

/-- A page is put on the list of pages in use. -/
theorem Served.lru (h : Served s s' D K l' d P) (pp : ℕ) :
    Served s { s' with mm := lruHaInsert s'.mm pp } D K l' d P := by
  have hlru := lruHaInsert_lruOnly s'.mm pp
  have hentry : ∀ d q, (lruHaInsert s'.mm pp).entry d q = s'.mm.entry d q := entry_of_mem hlru.mem
  refine ⟨h.inv.lruOnly hlru, h.keeps.trans (.ofSpaces ⟨rfl, rfl, rfl, rfl⟩ hlru.npages fun f _ =>
    hlru.ref f),
    h.aside.trans ⟨fun d' _ q _ _ => hentry d' q, fun _ _ _ _ _ _ => congrFun hlru.mem _⟩,
    fun hun => ?_⟩
  exact (h.unshared hun).congr fun d' _ q _ => hentry d' q

/-- The pages of the environment are counted. -/
theorem Served.addPages (h : Served s s' D K l' d P) (e : ℕ) (n : BitVec 32) :
    Served s (addPages s' e n) D K l' d P :=
  ⟨h.inv.addPages e n, h.keeps.trans (keeps_addPages s' e n),
    h.aside.trans ⟨fun _ _ _ _ _ => rfl, fun _ _ _ _ _ _ => rfl⟩,
    h.unshared⟩

end Served

end Jos
