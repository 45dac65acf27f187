/-
**The static mappings of the kernel.**

`boot_map_region` fills in the entries of a range of pages, and `pgdir_walk` adds the page tables
that are missing on the way. The directory of the kernel is its own page table in the window at
`UVPT`, so a page table that is added shows up there as the entry of another virtual page.

Main definitions:

* `Jos.bootMapRegion` — `boot_map_region`, with the physical address that carries the flags along;
* `Jos.memInitRegions`, `Jos.memInitMp` — the calls that `mem_init` and `mem_init_mp` make;
* `Jos.BootDir` — a directory whose page tables are frames of their own, none of them free;
* `Jos.StaticMap` — **what a step of the loop leaves behind**, with the pages that were written and
  those that got a page table.

Main results:

* `Jos.StaticMap.trans` — such steps compose: what was mapped before stays mapped;
* `Jos.bootMapRegion_maps` — **one region**.
-/

import Mathlib.Order.Interval.Finset.Nat
import JosKernel.BootFrames
import JosKernel.Env
import JosKernel.PageMap

set_option relaxedAutoImplicit false
set_option autoImplicit false

namespace Jos

open LinkedList Outcome

/-! ### `boot_map_region` -/

/-- **One round of the loop of `boot_map_region`.** The flags stay in `pa`. -/
def bootMapPage (s : Vm) (dir : ℕ) (perm va pa : BitVec 32) : Except Crash (Vm × BitVec 32) := do
  let (pte, s) ← pgdirWalk s (some dir) va .normal
  if isPresent perm then throw (.panic "boot_map_region: PTE_P already set in perms!")
  let pa := pa ||| (perm ||| pteP)
  match pte with
  | none => throw .nullDeref
  | some pte => pure (s.writePte pte va (pgnum pa) pa, pa)

/-- The loop of `boot_map_region`, with the number of pages that are left. -/
def bootMapFrom (dir : ℕ) (perm : BitVec 32) : ℕ → BitVec 32 → BitVec 32 → Vm → Except Crash Vm
  | 0, _, _, s => pure s
  | pagesToMap + 1, va, pa, s => do
      let (s, pa) ← bootMapPage s dir perm va pa
      bootMapFrom dir perm pagesToMap (va + BitVec.ofNat 32 pgSize) (pa + BitVec.ofNat 32 pgSize) s

/-- **`boot_map_region(pgdir, va, size, pa, perm)`.** -/
def bootMapRegion (s : Vm) (pgdir : Option ℕ) (va size pa perm : BitVec 32) : Except Crash Vm :=
  match pgdir with
  | none => throw (.panic "boot_map_region: pgdir is NULL!")
  | some dir =>
      if size.toNat % pgSize ≠ 0 then throw (.panic
        "boot_map_region: size is not a multiple of PGSIZE!")
      else bootMapFrom dir perm (size.toNat / pgSize) va pa s

/-! ### What `mem_init` maps -/

-- `NCPU`, `KSTACKTOP`, `KSTKSIZE` and `KSTKGAP`; `UPAGES` and `UENVS`; the sizes of a
-- `struct page_info` and of a `struct env`.
def nCpu : ℕ := 8
def kStackTop : BitVec 32 := kernBase
def kStkSize : BitVec 32 := 0x8000#32
def kStkGap : BitVec 32 := 0x8000#32
def uPages : BitVec 32 := 0xef000000#32
def uEnvs : BitVec 32 := 0xeec00000#32
def pageInfoSize : ℕ := 16
def envSize : ℕ := 3908

/-- `i386_detect_memory()`: the number of pages, from the two sizes in KB that the CMOS reports. -/
def i386DetectMemory (baseMem extMem : BitVec 16) : ℕ :=
  let npagesExtmem := extMem.toNat * 1024 / pgSize
  if npagesExtmem ≠ 0 then 0x100000 / pgSize + npagesExtmem else baseMem.toNat * 1024 / pgSize

/-- **`mem_init_mp()`**, with the address of `percpu_kstacks`. -/
def memInitMp (s : Vm) (kernPgdir : Option ℕ) (percpuKstacks : BitVec 32) : Except Crash Vm := do
  let (s, _) ← (List.range' 0 nCpu).foldlM (fun (st : Vm × BitVec 32) i => do
    let pa ← paddr (percpuKstacks + BitVec.ofNat 32 i * kStkSize)
    let s ← bootMapRegion st.1 kernPgdir (st.2 - kStkSize) kStkSize pa pteW
    pure (s, st.2 - (kStkGap + kStkSize))) (s, kStackTop)
  pure s

/-- **The calls of `boot_map_region` in `mem_init`**, with the addresses of `pages`, `envs` and
`percpu_kstacks`. -/
def memInitRegions (s : Vm) (kernPgdir : Option ℕ) (pages envs percpuKstacks : BitVec 32) :
    Except Crash Vm := do
  let pa ← paddr pages
  let s ← bootMapRegion s kernPgdir uPages (roundUp (BitVec.ofNat 32 (pageInfoSize * s.mm.npages))
      (BitVec.ofNat 32 pgSize)) pa pteU
  let pa ← paddr envs
  let s ← bootMapRegion s kernPgdir uEnvs (BitVec.ofNat 32 (envSize * nEnv)) pa pteU
  let s ← bootMapRegion s kernPgdir kernBase (0 - kernBase) 0 pteW
  memInitMp s kernPgdir percpuKstacks

/-! ### The directory -/

/-- **A directory whose page tables are frames of their own**, neither free nor shared between two
slots. -/
structure BootDir (m : Mm) (d : ℕ) (l : List ℕ) : Prop where
  free : FreeInv m l
  dir : d ∉ l
  tables : ∀ i < 1024, isPresent (m.word d i) = true → isHuge (m.word d i) = false →
    pgnum (m.word d i) ∉ l
  distinct : ∀ i < 1024, ∀ j < 1024, isPresent (m.word d i) = true → isHuge (m.word d i) = false →
    isPresent (m.word d j) = true →
    isHuge (m.word d j) = false → pgnum (m.word d i) = pgnum (m.word d j) → i = j

/-- The slots of the pages in `Q` can be filled: they lead to no 4 MB page, and not back to the
directory. -/
def Mm.Fillable (m : Mm) (d : ℕ) (Q : Finset ℕ) : Prop :=
  ∀ q ∈ Q, q < 2 ^ 20 ∧ (isPresent (m.word d (q / 1024)) = true →
    isHuge (m.word d (q / 1024)) = false ∧ pgnum (m.word d (q / 1024)) < m.npages ∧
      pgnum (m.word d (q / 1024)) ≠ d)

theorem Mm.Fillable.not_window {m : Mm} {d : ℕ} {Q : Finset ℕ} (hfill : m.Fillable d Q) {q : ℕ}
    (hq : q ∈ Q) : ¬ PtInv.Window m d q :=
  fun hwin => ((hfill q hq).2 hwin.2.1).2.2 hwin.2.2

/-- The slots of these pages that have no page table. -/
def Mm.missing (m : Mm) (d : ℕ) (A : Finset ℕ) : Finset ℕ :=
  (A.image (· / 1024)).filter fun i => isPresent (m.word d i) = false

/-- **Some entries of a directory have been filled in**: those of the pages in `Q`, with page tables
added for pages in `S`, on frames that were on the free list `l`. -/
structure StaticMap (s s' : Vm) (d : ℕ) (l l' : List ℕ) (S Q : Finset ℕ) (F : ℕ → BitVec 32) :
    Prop where
  npages : s'.mm.npages = s.mm.npages
  list : ∀ f ∈ l', f ∈ l
  inv : BootDir s'.mm d l'
  done : ∀ q ∈ Q, s'.mm.entry d q = F q
  rest : ∀ q < 2 ^ 20, q ∉ Q → ¬ PtInv.Window s.mm d q → s'.mm.entry d q = s.mm.entry d q
  slots : ∀ i < 1024, s'.mm.word d i = s.mm.word d i ∨ (isPresent (s.mm.word d i) = false ∧
    ∃ t ∈ l, t ∉ l' ∧ s'.mm.word d i = tablePde t ∧ s'.ref t = 1 ∧ ∃ q ∈ S, q / 1024 = i)
  refs : ∀ f, s'.ref f = s.ref f ∨
    (f ∈ l ∧ f ∉ l' ∧ ∃ i < 1024, isPresent (s.mm.word d i) = false ∧ s'.mm.word d i = tablePde f)
  ready : ∀ A, FramesLeft s.mm l (s.mm.missing d (S ∪ A)).card →
    FramesLeft s'.mm l' (s'.mm.missing d A).card

namespace StaticMap

variable {s s₁ s' : Vm} {d : ℕ} {l l₁ l' : List ℕ} {S S' Q Q' : Finset ℕ} {F : ℕ → BitVec 32}

theorem refl (h : BootDir s.mm d l) : StaticMap s s d l l ∅ ∅ F where
  npages := rfl
  list _ hf := hf
  inv := h
  done q hq := absurd hq (Finset.notMem_empty q)
  rest _ _ _ _ := rfl
  slots _ _ := Or.inl rfl
  refs _ := Or.inl rfl
  ready A hA := by rwa [Finset.empty_union] at hA

/-- A slot that has a page table keeps it. -/
theorem slot_kept (h : StaticMap s s' d l l' S Q F) {i : ℕ} (hi : i < 1024)
    (hP : isPresent (s.mm.word d i) = true) :
    s'.mm.word d i = s.mm.word d i := by
  rcases h.slots i hi with heq | ⟨habs, -⟩
  · exact heq
  · rw [hP] at habs
    exact absurd habs (by decide)

/-- A frame on the free list is one of the machine's. -/
theorem listed_lt (h : BootDir s.mm d l) {t : ℕ} (ht : t ∈ l) : t < 2 ^ 20 :=
  Nat.lt_of_lt_of_le (h.free.listed t ht).1 s.mm.npages_le

/-- No slot starts to lead back to the directory. -/
theorem not_window (h : StaticMap s s' d l l' S Q F) (h₀ : BootDir s.mm d l) {q : ℕ}
    (hq : q < 2 ^ 20) (hwin : ¬ PtInv.Window s.mm d q) : ¬ PtInv.Window s'.mm d q := by
  rintro ⟨hhuge, hP, hpg⟩
  rcases h.slots (q / 1024) (by omega) with heq | ⟨-, t, ht, -, heq, -⟩
  · rw [heq] at hhuge hP hpg
    exact hwin ⟨hhuge, hP, hpg⟩
  · rw [heq, pgnum_tablePde (listed_lt h₀ ht)] at hpg
    exact h₀.dir (hpg ▸ ht)

/-- The slots that could be filled still can. -/
theorem fillable (h : StaticMap s s' d l l' S Q F) (h₀ : BootDir s.mm d l)
    (hfill : s.mm.Fillable d Q') : s'.mm.Fillable d Q' := by
  intro q hq
  obtain ⟨hlt, hold⟩ := hfill q hq
  refine ⟨hlt, ?_⟩
  rcases h.slots (q / 1024) (by omega) with heq | ⟨-, t, ht, -, heq, -⟩
  · rw [heq, h.npages]
    exact hold
  · rw [heq, pgnum_tablePde (listed_lt h₀ ht), h.npages]
    exact fun _ => ⟨isHuge_tablePde t, (h₀.free.listed t ht).1, fun htd => h₀.dir (htd ▸ ht)⟩

/-- **Two steps make one.** -/
theorem trans (h₀ : BootDir s.mm d l) (h : StaticMap s s₁ d l l₁ S Q F)
    (h' : StaticMap s₁ s' d l₁ l' S' Q' F) (hfill : s.mm.Fillable d Q) :
    StaticMap s s' d l l' (S ∪ S') (Q ∪ Q') F where
  npages := h'.npages.trans h.npages
  list f hf := h.list f (h'.list f hf)
  inv := h'.inv
  done q hq := by
    by_cases hq' : q ∈ Q'
    · exact h'.done q hq'
    · have hqQ : q ∈ Q := (Finset.mem_union.1 hq).resolve_right hq'
      have hlt := (hfill q hqQ).1
      rw [h'.rest q hlt hq' (h.not_window h₀ hlt (hfill.not_window hqQ))]
      exact h.done q hqQ
  rest q hlt hq hwin := by
    rw [Finset.mem_union, not_or] at hq
    rw [h'.rest q hlt hq.2 (h.not_window h₀ hlt hwin)]
    exact h.rest q hlt hq.1 hwin
  slots i hi := by
    rcases h.slots i hi with heq | ⟨habs, t, ht, ht₁, heq, href, q, hq, hqi⟩
    · rcases h'.slots i hi with heq' | ⟨habs, t, ht, ht', heq', href, q, hq, hqi⟩
      · exact Or.inl (heq'.trans heq)
      · rw [heq] at habs
        exact Or.inr ⟨habs, t, h.list t ht, ht', heq', href, q, Finset.mem_union_right S hq, hqi⟩
    · have hkept : s'.mm.word d i = s₁.mm.word d i := by
        refine h'.slot_kept hi ?_
        rw [heq]
        exact isPresent_tablePde t
      have href' : s'.ref t = s₁.ref t := (h'.refs t).resolve_right fun hc => ht₁ hc.1
      exact Or.inr ⟨habs, t, ht, fun hmem => ht₁ (h'.list t hmem), hkept.trans heq,
        href'.trans href, q, Finset.mem_union_left S' hq, hqi⟩
  refs f := by
    rcases h.refs f with heq | ⟨hf, hf₁, i, hi, habs, heq⟩
    · rcases h'.refs f with heq' | ⟨hf, hf', i, hi, habs, heq'⟩
      · exact Or.inl (heq'.trans heq)
      · refine Or.inr ⟨h.list f hf, hf', i, hi, ?_, heq'⟩
        rcases h.slots i hi with hsame | ⟨habs', -⟩
        · rwa [hsame] at habs
        · exact habs'
    · refine Or.inr ⟨hf, fun hmem => hf₁ (h'.list f hmem), i, hi, habs, ?_⟩
      rw [h'.slot_kept hi (by rw [heq]; exact isPresent_tablePde f)]
      exact heq
  ready A hA := by
    rw [Finset.union_assoc] at hA
    exact h'.ready A (h.ready (S' ∪ A) hA)

end StaticMap

/-! ### The entry of one page is written -/

section Page

variable {s : Vm} {d q : ℕ} {l : List ℕ} {F : ℕ → BitVec 32}

theorem Mm.entry_of_small {m : Mm} {d q : ℕ} (hP : isPresent (m.word d (q / 1024)) = true)
    (hhuge : isHuge (m.word d (q / 1024)) = false) :
    m.entry d q = m.word (pgnum (m.word d (q / 1024))) (q % 1024) := by
  rw [Mm.entry, if_pos hP, if_neg (by rw [hhuge]; exact Bool.false_ne_true)]

/-- **A word of a page table is written**: the entries of the other pages are in other places. -/
theorem writePte_maps (h : BootDir s.mm d l) (hq : q < 2 ^ 20)
    (hP : isPresent (s.mm.word d (q / 1024)) = true)
    (hhuge : isHuge (s.mm.word d (q / 1024)) = false) (htd : pgnum (s.mm.word d (q / 1024)) ≠ d)
    (va w : BitVec 32) (f : ℕ) (hw : F q = w) :
    StaticMap s (s.writePte ⟨pgnum (s.mm.word d (q / 1024)), q % 1024⟩ va f w) d l l ∅ {q} F := by
  have hword := s.word_writePte ⟨pgnum (s.mm.word d (q / 1024)), q % 1024⟩ va w f
  have hdir : ∀ i, (s.writePte ⟨pgnum (s.mm.word d (q / 1024)), q % 1024⟩ va f w).mm.word d i =
      s.mm.word d i := by
    intro i
    rw [hword, if_neg]
    exact fun hc => htd hc.1.symm
  refine ⟨rfl, fun _ hf => hf, ⟨h.free.setWord .., h.dir, ?_, ?_⟩, ?_, ?_, fun i _ =>
    Or.inl (hdir i), fun _ => Or.inl rfl, ?_⟩
  · intro i hi
    rw [hdir]
    exact h.tables i hi
  · intro i hi j hj
    rw [hdir, hdir]
    exact h.distinct i hi j hj
  · intro q' hq'
    obtain rfl : q' = q := Finset.mem_singleton.1 hq'
    rw [Mm.entry_of_small (by rw [hdir]; exact hP) (by rw [hdir]; exact hhuge), hdir, hword,
      if_pos ⟨rfl, rfl⟩, hw]
  · intro q' hlt hq' _
    have hne : q' ≠ q := fun hc => hq' (Finset.mem_singleton.2 hc)
    rw [Mm.entry, Mm.entry, hdir]
    by_cases hP' : isPresent (s.mm.word d (q' / 1024)) = true
    · rw [if_pos hP', if_pos hP']
      by_cases hhuge' : isHuge (s.mm.word d (q' / 1024)) = true
      · rw [if_pos hhuge', if_pos hhuge']
      · rw [if_neg hhuge', if_neg hhuge', hword, if_neg]
        rintro ⟨hpg, hmod⟩
        have hslot := h.distinct (q' / 1024) (by omega) (q / 1024) (by omega)
          hP' (by simpa using hhuge') hP hhuge hpg
        have hmod : q' % 1024 = q % 1024 := hmod
        omega
    · rw [if_neg hP', if_neg hP']
  · intro A hA
    rw [Finset.empty_union] at hA
    refine (hA.mono ?_).congr rfl rfl
    simp only [Mm.missing, hdir, le_refl]

namespace AddedTable

variable {m m' : Mm} {i t : ℕ}

/-- The new page table was free, and those of the other slots are not. -/
theorem bootDir (ha : AddedTable m m' d t i) (h : BootDir m d l) (ht : t ∈ l)
    (hinv : FreeInv m' (l.erase t)) : BootDir m' d (l.erase t) := by
  have hgone : t ∉ l.erase t := h.free.chain.nodup.not_mem_erase
  refine ⟨hinv, fun hc => h.dir (List.mem_of_mem_erase hc), ?_, ?_⟩
  · intro j hj
    by_cases hji : j = i
    · rw [hji, ha.entry, pgnum_tablePde ha.lt]
      exact fun _ _ => hgone
    · rw [ha.other j hji]
      exact fun hP hH hc => h.tables j hj hP hH (List.mem_of_mem_erase hc)
  · intro j hj k hk
    by_cases hji : j = i
    · by_cases hki : k = i
      · exact fun _ _ _ _ _ => hji.trans hki.symm
      · rw [ha.other k hki, hji, ha.entry, pgnum_tablePde ha.lt]
        exact fun _ _ hP hH hc => absurd (hc ▸ ht) (h.tables k hk hP hH)
    · by_cases hki : k = i
      · rw [ha.other j hji, hki, ha.entry, pgnum_tablePde ha.lt]
        exact fun hP hH _ _ hc => absurd (hc.symm ▸ ht) (h.tables j hj hP hH)
      · rw [ha.other j hji, ha.other k hki]
        exact h.distinct j hj k hk

/-- An empty page table reads like a slot without one. -/
theorem entry_eq (ha : AddedTable m m' d t i) (h : BootDir m d l) (ht : t ∈ l) {p : ℕ}
    (hp : p < 2 ^ 20) (hwin : ¬ PtInv.Window m d p) : m'.entry d p = m.entry d p := by
  by_cases hslot : p / 1024 = i
  · rw [Mm.entry_of_absent (m := m) (by rw [hslot]; exact ha.absent),
      Mm.entry_of_small (by rw [hslot, ha.entry]; exact isPresent_tablePde t)
      (by rw [hslot, ha.entry]; exact isHuge_tablePde t), hslot, ha.entry, pgnum_tablePde ha.lt]
    exact ha.zero _
  · rw [Mm.entry, Mm.entry, ha.other _ hslot]
    by_cases hP : isPresent (m.word d (p / 1024)) = true
    · rw [if_pos hP, if_pos hP]
      by_cases hhuge : isHuge (m.word d (p / 1024)) = true
      · rw [if_pos hhuge, if_pos hhuge]
      · have hhuge : isHuge (m.word d (p / 1024)) = false := by simpa using hhuge
        have hnot := h.tables (p / 1024) (by omega) hP hhuge
        rw [if_neg (by rw [hhuge]; exact Bool.false_ne_true),
          if_neg (by rw [hhuge]; exact Bool.false_ne_true)]
        refine Mm.word_of_mem (ha.mem _ (fun hc => hwin ⟨hhuge, hP, hc⟩) fun hc => hnot ?_) _
        rw [hc]
        exact ht
    · rw [if_neg hP, if_neg hP]

/-- One page table fewer is missing. -/
theorem missing_card (ha : AddedTable m m' d t (q / 1024)) (A : Finset ℕ) :
    (m'.missing d A).card + 1 ≤ (m.missing d ({q} ∪ A)).card := by
  have hmem : q / 1024 ∈ m.missing d ({q} ∪ A) := by
    refine Finset.mem_filter.2 ⟨Finset.mem_image.2 ⟨q, ?_, rfl⟩, ha.absent⟩
    exact Finset.mem_union_left A (Finset.mem_singleton_self q)
  have hsub : m'.missing d A ⊆ (m.missing d ({q} ∪ A)).erase (q / 1024) := by
    intro j hj
    obtain ⟨hj, hjabs⟩ := Finset.mem_filter.1 hj
    obtain ⟨a, haA, haj⟩ := Finset.mem_image.1 hj
    have hne : j ≠ q / 1024 := by
      rintro rfl
      rw [ha.entry, isPresent_tablePde] at hjabs
      exact absurd hjabs (by decide)
    rw [ha.other j hne] at hjabs
    exact Finset.mem_erase.2 ⟨hne, Finset.mem_filter.2
      ⟨Finset.mem_image.2 ⟨a, Finset.mem_union_right {q} haA, haj⟩, hjabs⟩⟩
  rw [← Finset.card_erase_add_one hmem]
  exact Nat.succ_le_succ (Finset.card_le_card hsub)

end AddedTable

/-- **A free frame becomes the page table of a slot that has none.** -/
theorem addTable_maps {m' : Mm} {pp : ℕ} (h : BootDir s.mm d l) (hq : q < 2 ^ 20)
    (habs : isPresent (s.mm.word d (q / 1024)) = false) (hpp : pp ∈ l)
    (ht : Taken s.mm m' allocZero pp) (hfree : FreeInv m' (l.erase pp))
    (henough : ∀ n, FramesLeft s.mm l (n + 1) → FramesLeft m' (l.erase pp) n) (va : BitVec 32)
    {s' : Vm}
    (hs' : s' = (({ s with mm := m' } : Vm).writePte ⟨d, q / 1024⟩ va pp (tablePde pp)).setRef pp
      1) :
    StaticMap s s' d l (l.erase pp) {q} ∅ F ∧ s'.mm.word d (q / 1024) = tablePde pp := by
  have hlt := StaticMap.listed_lt h hpp
  have hgone : pp ∉ l.erase pp := h.free.chain.nodup.not_mem_erase
  have hdpp : d ≠ pp := fun hc => h.dir (hc ▸ hpp)
  have hadd : AddedTable s.mm s'.mm d pp (q / 1024) := addedTable_of_taken hdpp hlt habs ht hs'
  have href : ∀ f, s'.ref f = if f = pp then 1 else s.ref f := by
    intro f
    rw [hs', Vm.ref, Vm.ppRef_setRef]
    split
    · rfl
    · exact ht.ref f
  have hinv : FreeInv s'.mm (l.erase pp) := by
    rw [hs']
    exact FreeInv.setRef_vm _ (hfree.setWord ..) hgone
  refine ⟨⟨?_, fun f hf => List.mem_of_mem_erase hf, hadd.bootDir h hpp hinv,
    fun q' hq' => absurd hq' (Finset.notMem_empty q'),
    fun q' hlt' _ hwin => hadd.entry_eq h hpp hlt' hwin, ?_, ?_, ?_⟩, hadd.entry⟩
  · rw [hs']
    exact ht.npages
  · intro i _
    by_cases hiq : i = q / 1024
    · refine Or.inr ⟨?_, pp, hpp, hgone, ?_, ?_, q, Finset.mem_singleton_self q, hiq.symm⟩
      · rw [hiq]
        exact habs
      · rw [hiq]
        exact hadd.entry
      · rw [href, if_pos rfl]
    · exact Or.inl (hadd.other i hiq)
  · intro f
    by_cases hf : f = pp
    · rw [hf]
      exact Or.inr ⟨hpp, hgone, q / 1024, by omega, habs, hadd.entry⟩
    · refine Or.inl ?_
      rw [href, if_neg hf]
  · -- the frame that is gone is paid for by the page table that is there now
    intro A hA
    obtain ⟨n, hn⟩ := Nat.exists_eq_add_of_le (hadd.missing_card A)
    rw [hn, Nat.add_right_comm] at hA
    refine ((henough _ hA).mono (Nat.le_add_right _ n)).congr ?_ ?_
    · rw [hs']
      rfl
    · rw [hs']
      rfl

variable {va : BitVec 32}

theorem missing_singleton {m : Mm} (habs : isPresent (m.word d (q / 1024)) = false) :
    (m.missing d {q}).card = 1 := by
  rw [Mm.missing, Finset.image_singleton, Finset.filter_singleton, if_pos habs,
    Finset.card_singleton]

/-- **`pgdir_walk(pgdir, va, CREATE_NORMAL)`** in such a directory. It fails or panics only when
there is no frame for a page table. -/
theorem pgdirWalk_maps (h : BootDir s.mm d l) (hfill : s.mm.Fillable d {vpn va}) :
    Ends (fun c => c.Panics ∧ ¬ FramesLeft s.mm l (s.mm.missing d {vpn va}).card)
      (fun r => (r.1 = none ∧ ¬ FramesLeft s.mm l (s.mm.missing d {vpn va}).card) ∨
        ∃ l', r.1 = some ⟨pgnum (r.2.mm.word d (vpn va / 1024)), vpn va % 1024⟩ ∧
          StaticMap s r.2 d l l' {vpn va} ∅ F ∧
          isPresent (r.2.mm.word d (vpn va / 1024)) = true)
      (pgdirWalk s (some d) va .normal) := by
  obtain ⟨hlt, hold⟩ := hfill _ (Finset.mem_singleton_self _)
  by_cases hP : isPresent (s.mm.word d (vpn va / 1024)) = true
  · obtain ⟨hhuge, hpg, -⟩ := hold hP
    have hrun : pgdirWalk s (some d) va .normal =
        .ok (some ⟨pgnum (s.mm.word d (vpn va / 1024)), vpn va % 1024⟩, s) := by
      rw [← pdx_eq] at hP hhuge hpg ⊢
      rw [pgdirWalk_table ⟨hP, rfl⟩ hhuge hpg, ptx_eq]
    have hrefl : StaticMap s s d l l ∅ ∅ F := .refl h
    rw [hrun]
    refine Or.inr
      ⟨l, rfl, { hrefl with slots := fun i _ => Or.inl rfl, ready := fun A hA => hA.mono ?_ }, hP⟩
    exact Finset.card_le_card (Finset.filter_subset_filter _
      (Finset.image_subset_image Finset.subset_union_right))
  · have habs : isPresent (s.mm.word d (vpn va / 1024)) = false := by simpa using hP
    have hpte : ¬ isPresent (s.pte ⟨d, pdx va⟩) = true := by
      rw [pdx_eq]
      exact hP
    rw [missing_singleton habs]
    unfold pgdirWalk
    dsimp only
    rw [if_neg hpte, ends_bind]
    refine (pageAlloc_boot h.free).post ?_
    rintro ⟨pg, m'⟩ (⟨heq, hfew⟩ | ⟨pp, hpp, hpg, htaken, hfree, henough⟩)
    · obtain rfl : pg = none := congrArg Prod.fst heq
      exact Or.inl ⟨rfl, hfew⟩
    · obtain rfl : pg = some pp := hpg
      have href : ({ s with mm := m' } : Vm).ref pp + 1 = 1 := by
        change (m'.pages pp).ppRef + 1 = 1
        rw [htaken.ref pp, (h.free.listed pp hpp).2.2]
        rfl
      obtain ⟨s', hs'⟩ : ∃ s' : Vm, s' = (({ s with mm := m' } : Vm).writePte ⟨d, vpn va / 1024⟩ va
          pp (tablePde pp)).setRef pp 1 := ⟨_, rfl⟩
      obtain ⟨hmaps, hpde⟩ := addTable_maps (F := F) h hlt habs hpp htaken hfree henough va hs'
      have hnum : pgnum (s'.mm.word d (vpn va / 1024)) = pp := by
        rw [hpde, pgnum_tablePde (StaticMap.listed_lt h hpp)]
      have hend : walkEnd s' ⟨d, pdx va⟩ va false = .ok ⟨pp, ptx va⟩ := by
        refine walkEnd_table ?_ ?_ ?_
        · rw [pdx_eq, hpde]
          exact ⟨isPresent_tablePde pp, pgnum_tablePde (StaticMap.listed_lt h hpp)⟩
        · rw [pdx_eq, hpde]
          exact isHuge_tablePde pp
        · rw [hmaps.npages]
          exact (h.free.listed pp hpp).1
      change Ends _ _
        (walkEnd ((({ s with mm := m' } : Vm).writePte ⟨d, pdx va⟩ va pp (tablePde pp)).setRef pp
        (({ s with mm := m' } : Vm).ref pp + 1)) ⟨d, pdx va⟩ va false >>= fun pte => pure (some pte,
          (({ s with mm := m' } : Vm).writePte ⟨d, pdx va⟩ va pp (tablePde pp)).setRef pp
            (({ s with mm := m' } : Vm).ref pp + 1)))
      rw [← pdx_eq] at hs'
      rw [href, ← hs', hend]
      refine Or.inr ⟨l.erase pp, ?_, hmaps, by rw [hpde]; exact isPresent_tablePde pp⟩
      rw [hnum, ← ptx_eq]

/-- **One round of the loop.** -/
theorem bootMapPage_maps {pa perm : BitVec 32} (h : BootDir s.mm d l)
    (hfill : s.mm.Fillable d {vpn va}) (hperm : isPresent perm = false)
    (hF : F (vpn va) = pa ||| (perm ||| pteP)) :
    Ends (fun c => c.Panics ∧ ¬ FramesLeft s.mm l (s.mm.missing d {vpn va}).card)
      (fun r => r.2 = pa ||| (perm ||| pteP) ∧ ∃ l', StaticMap s r.1 d l l' {vpn va} {vpn va} F)
        (bootMapPage s d perm va pa) := by
  unfold bootMapPage
  rw [ends_bind]
  refine (pgdirWalk_maps (F := F) h hfill).post ?_
  rintro ⟨pte, s₁⟩ (⟨hnone, hfew⟩ | ⟨l₁, hpte, hmaps, hP⟩)
  · obtain rfl : pte = none := hnone
    dsimp only
    rw [hperm]
    exact ⟨True.intro, hfew⟩
  · obtain rfl : pte = some ⟨pgnum (s₁.mm.word d (vpn va / 1024)), vpn va % 1024⟩ := hpte
    have hmaps : StaticMap s s₁ d l l₁ {vpn va} ∅ F := hmaps
    obtain ⟨hlt, hslot⟩ := hmaps.fillable h hfill _ (Finset.mem_singleton_self _)
    obtain ⟨hhuge, -, hne⟩ := hslot hP
    have hwrite := writePte_maps hmaps.inv hlt hP hhuge hne va (pa ||| (perm ||| pteP))
      (pgnum (pa ||| (perm ||| pteP))) hF
    have hboth := hmaps.trans h hwrite fun q hq => absurd hq (Finset.notMem_empty q)
    rw [Finset.union_empty, Finset.empty_union] at hboth
    dsimp only
    rw [hperm]
    exact ⟨rfl, l₁, hboth⟩

end Page

/-! ### The loop -/

/-- Behind the last page comes the page 0. -/
theorem page2pa_mod (n : ℕ) : page2pa n = page2pa (n % 2 ^ 20) := by
  refine BitVec.eq_of_toNat_eq ?_
  simp only [page2pa, pgShift, BitVec.toNat_shiftLeft, BitVec.toNat_ofNat, Nat.shiftLeft_eq]
  omega

theorem page2pa_pgnum_add {pa : BitVec 32} (h : pgoff pa = 0) (k : ℕ) :
    page2pa (pgnum pa + k) = pa + BitVec.ofNat 32 (k * pgSize) := by
  have hsize : pgSize = 4096 := rfl
  refine BitVec.eq_of_toNat_eq ?_
  rw [pgoff_eq] at h
  rw [page2pa_mod, page2pa_toNat (Nat.mod_lt _ (by decide)), BitVec.toNat_add, BitVec.toNat_ofNat,
    pgnum_eq, hsize]
  omega

/-- The physical address of the next page, with the flags of the last one. -/
theorem running_pa (f : ℕ) {g : BitVec 32} (hg : g.toNat < 4096) :
    (page2pa f ||| g) + BitVec.ofNat 32 pgSize = page2pa (f + 1) ||| g := by
  have hwrap : ∀ n, (page2pa n ||| g).toNat = n % 2 ^ 20 * 4096 + g.toNat := by
    intro n
    rw [page2pa_mod, page2pa_or_toNat (Nat.mod_lt _ (by decide)) hg]
  refine BitVec.eq_of_toNat_eq ?_
  have hsize : (BitVec.ofNat 32 pgSize).toNat = 4096 := rfl
  rw [BitVec.toNat_add, hwrap, hwrap, hsize]
  omega

theorem vpn_succ {va : BitVec 32} (h : vpn va + 1 < 2 ^ 20) :
    vpn (va + BitVec.ofNat 32 pgSize) = vpn va + 1 := by
  have hsize : (BitVec.ofNat 32 pgSize).toNat = 4096 := rfl
  unfold vpn at h ⊢
  rw [BitVec.toNat_add, hsize]
  omega

theorem Ico_succ_left (q n : ℕ) :
    {q} ∪ Finset.Ico (q + 1) (q + 1 + n) = Finset.Ico q (q + (n + 1)) := by
  ext k
  simp only [Finset.mem_union, Finset.mem_singleton, Finset.mem_Ico]
  omega

theorem Mm.Fillable.mono {m : Mm} {d : ℕ} {Q Q' : Finset ℕ} (h : m.Fillable d Q) (hsub : Q' ⊆ Q) :
    m.Fillable d Q' :=
  fun q hq => h q (hsub hq)

theorem Mm.missing_mono (m : Mm) (d : ℕ) {A B : Finset ℕ} (h : A ⊆ B) :
    (m.missing d A).card ≤ (m.missing d B).card :=
  Finset.card_le_card (Finset.filter_subset_filter _ (Finset.image_subset_image h))

/-- **The loop of `boot_map_region`.** The address that is carried along has the flags of `perm`
from the second round on, which setting them again does not change. -/
theorem bootMapFrom_maps {d : ℕ} {perm : BitVec 32} {F : ℕ → BitVec 32}
    (hperm : isPresent perm = false) (hflags : (perm ||| pteP).toNat < 4096) :
    ∀ {n : ℕ} {s : Vm} {l : List ℕ} {va pa : BitVec 32} {f : ℕ}, BootDir s.mm d l →
      s.mm.Fillable d (Finset.Ico (vpn va) (vpn va + n)) → vpn va + n ≤ 2 ^ 20 →
      pa ||| (perm ||| pteP) = page2pa f ||| (perm ||| pteP) →
      (∀ k < n, F (vpn va + k) = page2pa (f + k) ||| (perm ||| pteP)) →
      Ends (fun c => c.Panics ∧ ¬ FramesLeft s.mm l
        (s.mm.missing d (Finset.Ico (vpn va) (vpn va + n))).card)
        (fun s' => ∃ l', StaticMap s s' d l l' (Finset.Ico (vpn va) (vpn va + n))
          (Finset.Ico (vpn va) (vpn va + n)) F)
        (bootMapFrom d perm n va pa s) := by
  intro n
  induction n with
  | zero =>
      intro s l va pa f h _ _ _ _
      refine ⟨l, ?_⟩
      rw [Nat.add_zero, Finset.Ico_self]
      exact .refl h
  | succ n ih =>
      intro s l va pa f h hfill hva hpa hF
      have hone : {vpn va} ⊆ Finset.Ico (vpn va) (vpn va + (n + 1)) := by
        rw [← Ico_succ_left]
        exact Finset.subset_union_left
      have hhead : F (vpn va) = pa ||| (perm ||| pteP) := by
        rw [hpa]
        exact hF 0 (Nat.succ_pos n)
      rw [bootMapFrom, ends_bind]
      refine (bootMapPage_maps h (hfill.mono hone) hperm hhead).mono
        (fun _ hc => ⟨hc.1, fun he => hc.2 (he.mono (s.mm.missing_mono d hone))⟩) ?_
      rintro ⟨s₁, pa₁⟩ ⟨hpa₁, l₁, hmaps⟩
      obtain rfl : pa₁ = pa ||| (perm ||| pteP) := hpa₁
      have hmaps : StaticMap s s₁ d l l₁ {vpn va} {vpn va} F := hmaps
      dsimp only
      rcases Nat.eq_zero_or_pos n with rfl | hpos
      · refine ⟨l₁, ?_⟩
        rw [← Ico_succ_left, Nat.add_zero, Finset.Ico_self, Finset.union_empty]
        exact hmaps
      · have hnext := @vpn_succ va (by omega)
        have hsub : Finset.Ico (vpn va + 1) (vpn va + 1 + n) ⊆ Finset.Ico (vpn va)
            (vpn va + (n + 1)) := by
          rw [← Ico_succ_left]
          exact Finset.subset_union_right
        have hready := hmaps.ready (Finset.Ico (vpn va + 1) (vpn va + 1 + n))
        rw [Ico_succ_left] at hready
        have hpa' : (pa ||| (perm ||| pteP)) + BitVec.ofNat 32 pgSize ||| (perm ||| pteP) = page2pa
            (f + 1) ||| (perm ||| pteP) := by
          rw [hpa, running_pa f hflags, BitVec.or_assoc, BitVec.or_self]
        refine (@ih _ _ (va + BitVec.ofNat 32 pgSize) _ (f + 1) hmaps.inv
          (by rw [hnext]; exact hmaps.fillable h (hfill.mono hsub)) (by omega) hpa' ?_).mono ?_ ?_
        · intro k hk
          rw [hnext, Nat.add_assoc, Nat.add_assoc, Nat.add_comm 1 k]
          exact hF (k + 1) (by omega)
        · rintro c ⟨hc, hfew⟩
          rw [hnext] at hfew
          exact ⟨hc, fun he => hfew (hready he)⟩
        · rintro s' ⟨l', hmaps'⟩
          rw [hnext] at hmaps'
          have hboth := hmaps.trans h hmaps' (hfill.mono hone)
          rw [Ico_succ_left] at hboth
          exact ⟨l', hboth⟩

/-- The pages of a region. -/
def regionPages (va size : BitVec 32) : Finset ℕ :=
  Finset.Ico (vpn va) (vpn va + size.toNat / pgSize)

/-- **`boot_map_region`.** It panics only when the frames for the page tables do not suffice. -/
theorem bootMapRegion_ends {s : Vm} {d : ℕ} {l : List ℕ} (va size pa perm : BitVec 32)
    (F : ℕ → BitVec 32) (h : BootDir s.mm d l) (hfill : s.mm.Fillable d (regionPages va size))
    (hsize : size.toNat % pgSize = 0) (hpa : pgoff pa = 0)
    (hva' : vpn va + size.toNat / pgSize ≤ 2 ^ 20) (hlow : perm.toNat < 4096)
    (hperm : isPresent perm = false)
    (hF : ∀ k < size.toNat / pgSize, F (vpn va + k) = page2pa (pgnum pa + k) ||| (perm ||| pteP)) :
    Ends (fun c => c.Panics ∧ ¬ FramesLeft s.mm l (s.mm.missing d (regionPages va size)).card)
      (fun s' => ∃ l', StaticMap s s' d l l' (regionPages va size) (regionPages va size) F)
        (bootMapRegion s (some d) va size pa perm) := by
  have hflags : (perm ||| pteP).toNat < 4096 := by
    rw [BitVec.toNat_or]
    exact Nat.or_lt_two_pow (n := 12) hlow (by decide)
  have hround : page2pa (pgnum pa) = pa := by
    refine BitVec.eq_of_toNat_eq ?_
    rw [page2pa_toNat (pgnum_lt pa), pgnum_eq]
    rw [pgoff_eq] at hpa
    omega
  have hcheck : ¬ size.toNat % pgSize ≠ 0 := fun hc => hc hsize
  rw [bootMapRegion, if_neg hcheck]
  exact bootMapFrom_maps hperm hflags h hfill hva' (by rw [hround]) hF

/-- With enough frames it succeeds. -/
theorem bootMapRegion_maps {s : Vm} {d : ℕ} {l : List ℕ} (va size pa perm : BitVec 32)
    (F : ℕ → BitVec 32) (h : BootDir s.mm d l) (hfill : s.mm.Fillable d (regionPages va size))
    (he : FramesLeft s.mm l (s.mm.missing d (regionPages va size)).card)
    (hsize : size.toNat % pgSize = 0) (hpa : pgoff pa = 0)
    (hva' : vpn va + size.toNat / pgSize ≤ 2 ^ 20) (hlow : perm.toNat < 4096)
    (hperm : isPresent perm = false)
    (hF : ∀ k < size.toNat / pgSize, F (vpn va + k) = page2pa (pgnum pa + k) ||| (perm ||| pteP)) :
    ∃ s' l', bootMapRegion s (some d) va size pa perm = .ok s' ∧
      StaticMap s s' d l l' (regionPages va size) (regionPages va size) F := by
  obtain ⟨s', hrun, l', hmaps⟩ := (bootMapRegion_ends va size pa perm F h hfill hsize hpa hva' hlow
    hperm hF).exists_ok fun _ hc => hc.2 he
  exact ⟨s', l', hrun, hmaps⟩

end Jos
