/-
**From a frame to its entry.**

`find_pte_all` looks for an entry that maps a frame. It looks through all slots of a directory,
takes the frame that a slot leads to for a page table, and goes from the first environment to the
last one. The direct map at `KERNBASE` has an entry for every frame, so the search does not come to
a second environment; and the words of a page of 4 MB are read as entries.

Main definitions:

* `Jos.findPte` — the call with variables of the kernel;
* `Jos.Reads`, `Jos.FirstRead` — the words that the search takes for entries of a frame, and the
  first of them;
* `Jos.MapsSmall` — an entry of an environment for a page below `UTOP`;
* `Jos.EnvTables` — directories with the kernel's tables above `UTOP`;
* `Jos.FindsUserMap` — **what the search is for**.

Main results:

* `Jos.findPteEnvs_first` — the search finds the first of these words;
* `Jos.findsUserMap_iff` — **when it finds an entry of a user**.
-/

import JosKernel.PageOut
import JosKernel.SpaceLife

set_option relaxedAutoImplicit false
set_option autoImplicit false

namespace Jos

open Outcome

/-! ### The call -/

/-- **`find_pte_all(p, &e, &va)`**, where `e` and `va` are variables of the kernel: the entry, and
what is in the two variables afterwards. -/
def findPte (s : OutState) (pp : ℕ) (e : Option ℕ) :
    Except Crash (Option PtePtr × Option ℕ × BitVec 32) := do
  let found ← findPteEnvs s (page2pa pp) (List.range' nKthreads (nEnv - nKthreads))
  match found with
  | none => pure (none, e, 0)
  | some (i, j, k, p) => pure (some p, some i, pgAddr j k ||| page2pa pp &&& 0xfff#32)

/-! ### The words that the search reads -/

/-- The search takes the word `k` of what the slot `j` of the directory `dir` leads to for an entry
of the page `pp`. -/
structure Reads (m : Mm) (dir pp j k : ℕ) : Prop where
  slot : j < nPdEntries
  idx : k < nPdEntries
  pde : isPresent (m.word dir j) = true
  pte : isPresent (m.word (pgnum (m.word dir j)) k) = true
  addr : pteAddr (m.word (pgnum (m.word dir j)) k) = page2pa pp

instance (m : Mm) (dir pp j k : ℕ) : Decidable (Reads m dir pp j k) :=
  decidable_of_iff (j < nPdEntries ∧ k < nPdEntries ∧ isPresent (m.word dir j) = true ∧
    isPresent (m.word (pgnum (m.word dir j)) k) = true ∧ pteAddr (m.word (pgnum (m.word dir j)) k) =
      page2pa pp)
    ⟨fun h => ⟨h.1, h.2.1, h.2.2.1, h.2.2.2.1, h.2.2.2.2⟩, fun h =>
      ⟨h.slot, h.idx, h.pde, h.pte, h.addr⟩⟩

/-- The environment `i` is one that is looked at. -/
structure Searched (s : OutState) (i : ℕ) : Prop where
  thread : nKthreads ≤ i
  lt : i < nEnv
  status : (s.status i).searched = true

/-- The same in the directory of an environment. -/
def ReadsIn (s : OutState) (pp i j k : ℕ) : Prop :=
  ∃ dir, s.vm.pgdir i = some dir ∧ Reads s.vm.mm dir pp j k

/-- **The first word that is taken for an entry of the page.** -/
structure FirstRead (s : OutState) (pp i j k : ℕ) : Prop where
  searched : Searched s i
  reads : ReadsIn s pp i j k
  env : ∀ i' < i, Searched s i' → ∀ j' k', ¬ ReadsIn s pp i' j' k'
  slot : ∀ j' < j, ∀ k', ¬ ReadsIn s pp i j' k'
  idx : ∀ k' < k, ¬ ReadsIn s pp i j k'

/-- There is only one first word. -/
theorem FirstRead.unique {s : OutState} {pp i j k i' j' k' : ℕ} (h : FirstRead s pp i j k)
    (h' : FirstRead s pp i' j' k') :
    i = i' ∧ j = j' ∧ k = k' := by
  have hi : i = i' := by
    rcases Nat.lt_trichotomy i i' with hlt | heq | hlt
    · exact absurd h.reads (h'.env i hlt h.searched j k)
    · exact heq
    · exact absurd h'.reads (h.env i' hlt h'.searched j' k')
  subst hi
  have hj : j = j' := by
    rcases Nat.lt_trichotomy j j' with hlt | heq | hlt
    · exact absurd h.reads (h'.slot j hlt k)
    · exact heq
    · exact absurd h'.reads (h.slot j' hlt k')
  subst hj
  rcases Nat.lt_trichotomy k k' with hlt | heq | hlt
  · exact absurd h.reads (h'.idx k hlt)
  · exact ⟨rfl, rfl, heq⟩
  · exact absurd h'.reads (h.idx k' hlt)

/-- The search through the directory `dir` does not leave physical memory. -/
def SlotsBelow (m : Mm) (dir : ℕ) : Prop :=
  ∀ j < nPdEntries, isPresent (m.word dir j) = true → pgnum (m.word dir j) < m.npages

/-- The environments that are looked at have such directories. -/
def Searchable (s : OutState) : Prop :=
  ∀ i, Searched s i → ∃ dir, s.vm.pgdir i = some dir ∧ SlotsBelow s.vm.mm dir

/-- In an ascending list the smaller elements come before. -/
theorem mem_before {pre post : List ℕ} {j j' : ℕ} (h : (pre ++ j :: post).Pairwise (· < ·))
    (hj : j' < j) (hmem : j' ∈ pre ++ j :: post) :
    j' ∈ pre := by
  rcases List.mem_append.1 hmem with hmem | hmem
  · exact hmem
  · rcases List.mem_cons.1 hmem with rfl | hmem
    · exact absurd hj (Nat.lt_irrefl _)
    · have hlt := (List.pairwise_cons.1 (List.pairwise_append.1 h).2.1).1 j' hmem
      omega

/-- A physical address of a page has no offset. -/
theorem page2pa_offset (pp : ℕ) : page2pa pp &&& 0xfff#32 = 0#32 := by
  apply BitVec.eq_of_getLsbD_eq
  intro i _
  rw [BitVec.getLsbD_and, getLsbD_mask, BitVec.getLsbD_zero]
  by_cases hi : i < 12
  · rw [getLsbD_page2pa_low pp hi, Bool.false_and]
  · rw [decide_eq_false hi, Bool.and_false]

section

variable {m : Mm} {dir pp : ℕ}

/-- **A page table**: the first of its entries for the page is found. -/
theorem findPteTable_eq_some {j k : ℕ} (hj : j < nPdEntries)
    (hpde : isPresent (m.word dir j) = true)
    (h : findPteTable m (pgnum (m.word dir j)) (page2pa pp) = some k) :
    Reads m dir pp j k ∧ ∀ k' < k, ¬ Reads m dir pp j k' := by
  obtain ⟨hread, hk, hfirst⟩ := List.find?_range_eq_some.1 h
  simp only [Bool.and_eq_true, beq_iff_eq] at hread
  refine ⟨⟨hj, List.mem_range.1 hk, hpde, hread.1, hread.2⟩, fun k' hk' hc => ?_⟩
  have hnot := hfirst k' hk'
  simp [hc.pte, hc.addr] at hnot

theorem findPteTable_eq_none {j : ℕ} (h : findPteTable m (pgnum (m.word dir j)) (page2pa pp) = none)
    (k : ℕ) : ¬ Reads m dir pp j k := by
  intro hc
  have hnot := List.find?_range_eq_none.1 h k hc.idx
  simp [hc.pte, hc.addr] at hnot

/-- **How the search through the slots `js` ends**: there is nothing, or the first entry of the page
is found. -/
def DirSearch (m : Mm) (dir pp : ℕ) (js : List ℕ) : Prop :=
  (findPteDir m dir (page2pa pp) js = .ok none ∧ ∀ j ∈ js, ∀ k, ¬ Reads m dir pp j k) ∨
    ∃ pre j post k, js = pre ++ j :: post ∧ findPteDir m dir (page2pa pp)
      js = .ok (some (j, k, ⟨pgnum (m.word dir j), k⟩)) ∧
      Reads m dir pp j k ∧ (∀ j' ∈ pre, ∀ k', ¬ Reads m dir pp j' k') ∧ ∀ k' < k,
        ¬ Reads m dir pp j k'

/-- A slot with nothing before the others. -/
theorem DirSearch.skip {j : ℕ} {js : List ℕ} (h : DirSearch m dir pp js)
    (hno : ∀ k, ¬ Reads m dir pp j k)
    (heq : findPteDir m dir (page2pa pp) (j :: js) = findPteDir m dir (page2pa pp) js) :
    DirSearch m dir pp (j :: js) := by
  rcases h with ⟨hrun, hnone⟩ | ⟨pre, j', post, k, rfl, hrun, hread, hpre, hk⟩
  · refine Or.inl ⟨heq.trans hrun, fun j' hj' => ?_⟩
    rcases List.mem_cons.1 hj' with rfl | hj'
    · exact hno
    · exact hnone j' hj'
  · refine Or.inr ⟨j :: pre, j', post, k, rfl, heq.trans hrun, hread, fun j'' hj'' => ?_, hk⟩
    rcases List.mem_cons.1 hj'' with rfl | hj''
    · exact hno
    · exact hpre j'' hj''

/-- **A directory**, in the order of the slots `js`. -/
theorem findPteDir_first (hbelow : SlotsBelow m dir) :
    ∀ js : List ℕ, (∀ j ∈ js, j < nPdEntries) → DirSearch m dir pp js := by
  intro js
  induction js with
  | nil => exact fun _ => Or.inl ⟨rfl, (fun j hj => nomatch hj)⟩
  | cons j js ih =>
      intro hjs
      have hj := hjs j List.mem_cons_self
      have hrest := ih fun j' hj' => hjs j' (List.mem_cons_of_mem _ hj')
      by_cases hpde : isPresent (m.word dir j) = true
      · have hkaddr : kaddr m.npages (pteAddr (m.word dir j)) =
            .ok (pteAddr (m.word dir j) + kernBase) := by
          rw [kaddr, pgnum_pteAddr, if_neg (Nat.not_le.2 (hbelow j hj hpde))]
          rfl
        cases htable : findPteTable m (pgnum (m.word dir j)) (page2pa pp) with
        | none =>
            refine hrest.skip (findPteTable_eq_none htable) ?_
            refine (if_pos hpde).trans ?_
            rw [hkaddr, htable]
            rfl
        | some k =>
            obtain ⟨hread, hfirst⟩ := findPteTable_eq_some hj hpde htable
            refine Or.inr ⟨[], j, js, k, rfl, ?_, hread, (fun j' hj' => nomatch hj'), hfirst⟩
            refine (if_pos hpde).trans ?_
            rw [hkaddr, htable]
            rfl
      · exact hrest.skip (fun k hc => hpde hc.pde) (if_neg hpde)

end

section

variable {s : OutState} {pp : ℕ}

/-- **How the search through the environments `is` ends.** -/
def EnvSearch (s : OutState) (pp : ℕ) (is : List ℕ) : Prop :=
  (findPteEnvs s (page2pa pp) is = .ok none ∧ ∀ i ∈ is, Searched s i →
    ∀ j k, ¬ ReadsIn s pp i j k) ∨
    ∃ pre i post j k dir, is = pre ++ i :: post ∧ s.vm.pgdir i = some dir ∧
      findPteEnvs s (page2pa pp) is = .ok (some (i, j, k, ⟨pgnum (s.vm.mm.word dir j), k⟩)) ∧
      Searched s i ∧ ReadsIn s pp i j k ∧
      (∀ i' ∈ pre, Searched s i' → ∀ j' k', ¬ ReadsIn s pp i' j' k') ∧
      (∀ j' < j, ∀ k', ¬ ReadsIn s pp i j' k') ∧
      ∀ k' < k, ¬ ReadsIn s pp i j k'

/-- An environment with nothing before the others. -/
theorem EnvSearch.skip {i : ℕ} {is : List ℕ} (h : EnvSearch s pp is)
    (hno : Searched s i → ∀ j k, ¬ ReadsIn s pp i j k)
    (heq : findPteEnvs s (page2pa pp) (i :: is) = findPteEnvs s (page2pa pp) is) :
    EnvSearch s pp (i :: is) := by
  rcases h with ⟨hrun, hnone⟩ | ⟨pre, i', post, j, k, dir, rfl, hdir, hrun, hsearched, hread,
    hpre, hslot, hidx⟩
  · refine Or.inl ⟨heq.trans hrun, fun i' hi' => ?_⟩
    rcases List.mem_cons.1 hi' with rfl | hi'
    · exact hno
    · exact hnone i' hi'
  · refine Or.inr ⟨i :: pre, i', post, j, k, dir, rfl, hdir, heq.trans hrun, hsearched, hread,
      fun i'' hi'' => ?_, hslot, hidx⟩
    rcases List.mem_cons.1 hi'' with rfl | hi''
    · exact hno
    · exact hpre i'' hi''

/-- **The environments**, in the order `is`. -/
theorem findPteEnvs_list (h : Searchable s) :
    ∀ is : List ℕ, (∀ i ∈ is, nKthreads ≤ i ∧ i < nEnv) → EnvSearch s pp is := by
  intro is
  induction is with
  | nil => exact fun _ => Or.inl ⟨rfl, (fun i hi => nomatch hi)⟩
  | cons i is ih =>
      intro his
      obtain ⟨hthread, hlt⟩ := his i List.mem_cons_self
      have hrest := ih fun i' hi' => his i' (List.mem_cons_of_mem _ hi')
      by_cases hst : (s.status i).searched = true
      · obtain ⟨dir, hdir, hbelow⟩ := h i ⟨hthread, hlt, hst⟩
        have hreads : ∀ j k, ReadsIn s pp i j k ↔ Reads s.vm.mm dir pp j k := by
          intro j k
          constructor
          · rintro ⟨dir', hdir', hread⟩
            rw [hdir] at hdir'
            rwa [Option.some.inj hdir']
          · exact fun hread => ⟨dir, hdir, hread⟩
        rcases @findPteDir_first s.vm.mm dir pp hbelow (List.range nPdEntries) fun j hj =>
          List.mem_range.1 hj with
          ⟨hrun, hnone⟩ | ⟨pre, j, post, k, hsplit, hrun, hread, hpre, hidx⟩
        · refine hrest.skip (fun _ j k hc => ?_) ?_
          · have hread := (hreads j k).1 hc
            exact hnone j (List.mem_range.2 hread.slot) k hread
          · rw [findPteEnvs, if_pos hst, hdir]
            dsimp only
            rw [hrun]
            rfl
        · -- the slots before `j` are the smaller ones
          have hsorted : (pre ++ j :: post).Pairwise (· < ·) := by
            rw [← hsplit]
            exact List.pairwise_lt_range
          have hbefore : ∀ j' < j, j' ∈ pre := fun j' hj' => mem_before hsorted hj' (by
            rw [← hsplit]
            exact List.mem_range.2 (Nat.lt_trans hj' hread.slot))
          refine Or.inr ⟨[], i, is, j, k, dir, rfl, hdir, ?_, ⟨hthread, hlt, hst⟩, (hreads j k).2
            hread, (fun i' hi' => nomatch hi'),
            fun j' hj' k' hc => hpre j' (hbefore j' hj') k' ((hreads j' k').1 hc), fun k' hk' hc =>
              hidx k' hk' ((hreads j k').1 hc)⟩
          rw [findPteEnvs, if_pos hst, hdir]
          dsimp only
          rw [hrun]
          rfl
      · exact hrest.skip (fun hc => absurd hc.status hst) (by rw [findPteEnvs, if_neg hst])

/-- **The search finds the first word** that it takes for an entry of the page. -/
theorem findPteEnvs_first (h : Searchable s) :
    (findPteEnvs s (page2pa pp) (List.range' nKthreads (nEnv - nKthreads)) = .ok none ∧
        ∀ i, Searched s i → ∀ j k, ¬ ReadsIn s pp i j k) ∨
      ∃ i j k dir, FirstRead s pp i j k ∧ s.vm.pgdir i = some dir ∧
        findPteEnvs s (page2pa pp) (List.range' nKthreads (nEnv - nKthreads)) =
          .ok (some (i, j, k, ⟨pgnum (s.vm.mm.word dir j), k⟩)) := by
  have hmem : ∀ i, i ∈ List.range' nKthreads (nEnv - nKthreads) ↔ nKthreads ≤ i ∧ i < nEnv := by
    intro i
    rw [List.mem_range'_1]
    exact and_congr_right fun _ => Iff.rfl
  rcases @findPteEnvs_list s pp h _ fun i hi => (hmem i).1 hi with
    ⟨hrun, hnone⟩ | ⟨pre, i, post, j, k, dir, hsplit, hdir, hrun, hsearched, hread,
      hpre, hslot, hidx⟩
  · exact Or.inl ⟨hrun, fun i hi => hnone i ((hmem i).2 ⟨hi.thread, hi.lt⟩) hi⟩
  · refine Or.inr ⟨i, j, k, dir, ⟨hsearched, hread, fun i' hi' hs => hpre i' ?_ hs, hslot, hidx⟩,
      hdir, hrun⟩
    -- the environments before `i` are the smaller ones
    have hin : i' ∈ pre ++ i :: post := by
      rw [← hsplit]
      exact (hmem i').2 ⟨hs.thread, hs.lt⟩
    have hsorted : (pre ++ i :: post).Pairwise (· < ·) := by
      rw [← hsplit]
      exact List.pairwise_lt_range'
    exact mem_before hsorted hi' hin

/-- **The call**: it returns the first of these words, with the environment and the address. -/
theorem findPte_first (h : Searchable s) (e : Option ℕ) :
    (findPte s pp e = .ok (none, e, 0) ∧ ∀ i, Searched s i → ∀ j k, ¬ ReadsIn s pp i j k) ∨
      ∃ i j k dir, FirstRead s pp i j k ∧ s.vm.pgdir i = some dir ∧
        findPte s pp e = .ok (some ⟨pgnum (s.vm.mm.word dir j), k⟩, some i, pgAddr j k) := by
  rcases @findPteEnvs_first s pp h with ⟨hrun, hnone⟩ | ⟨i, j, k, dir, hfirst, hdir, hrun⟩
  · refine Or.inl ⟨?_, hnone⟩
    rw [findPte, hrun]
    rfl
  · refine Or.inr ⟨i, j, k, dir, hfirst, hdir, ?_⟩
    have hoff : pgAddr j k ||| page2pa pp &&& 0xfff#32 = pgAddr j k := by
      rw [page2pa_offset, BitVec.or_zero]
    rw [findPte, hrun, ← hoff]
    rfl

end

/-! ### Entries of users -/

/-- **A live environment maps the page** at the address of the slot `j` and the entry `k`, which is
one of a small page below `UTOP`. -/
structure MapsSmall (s : OutState) (pp i j k : ℕ) : Prop where
  lt : i < nEnv
  live : s.status i ≠ .free
  low : j < pdx uTop
  small : ∃ dir, s.vm.pgdir i = some dir ∧ isHuge (s.vm.mm.word dir j) = false ∧
    Reads s.vm.mm dir pp j k

/-- **What the search is for**: the entry of a user, if there is one, and `NULL` otherwise. -/
def FindsUserMap (s : OutState) (pp : ℕ) (e : Option ℕ) : Prop :=
  ((∀ i j k, ¬ MapsSmall s pp i j k) → ∃ r, findPte s pp e = .ok (none, r)) ∧
    ((∃ i j k, MapsSmall s pp i j k) → ∃ i j k dir, MapsSmall s pp i j k ∧ s.vm.pgdir i = some dir ∧
      findPte s pp e = .ok (some ⟨pgnum (s.vm.mm.word dir j), k⟩, some i, pgAddr j k))

/-- A directory of an environment: above `UTOP` it has the slots of the kernel, but for the one
through which it sees itself. -/
structure KernelAbove (s : Vm) (dir : ℕ) : Prop where
  shared : ∀ j, pdx uTop ≤ j → j < nPdEntries → j ≠ pdx uVpt → s.mm.word dir j = s.kernPgdir j
  below : SlotsBelow s.mm dir

/-- **The directories of the environments.** The kernel's tables map all frames at `KERNBASE`, which
has room for 256 MB. -/
structure EnvTables (s : OutState) : Prop where
  fits : s.vm.mm.npages ≤ 65536
  direct : ∀ pp < s.vm.mm.npages, isPresent (s.vm.kernPgdir (pdx kernBase + pp / 1024)) = true ∧
    isPresent (s.vm.mm.word (pgnum (s.vm.kernPgdir (pdx kernBase + pp / 1024))) (pp % 1024)) =
      true ∧
    pteAddr (s.vm.mm.word (pgnum (s.vm.kernPgdir (pdx kernBase + pp / 1024))) (pp % 1024)) =
      page2pa pp
  space : ∀ i, Searched s i → ∃ dir, s.vm.pgdir i = some dir ∧ KernelAbove s.vm dir

/-- The first environment that is looked at. -/
structure FirstSearched (s : OutState) (i : ℕ) : Prop where
  searched : Searched s i
  first : ∀ i' < i, ¬ Searched s i'

section

variable {s : OutState} {pp : ℕ}

theorem MapsSmall.readsIn {i j k : ℕ} (h : MapsSmall s pp i j k) : ReadsIn s pp i j k := by
  obtain ⟨dir, hdir, -, hread⟩ := h.small
  exact ⟨dir, hdir, hread⟩

theorem Searched.live {i : ℕ} (h : Searched s i) : s.status i ≠ .free := by
  intro hfree
  have hst := h.status
  rw [hfree] at hst
  exact nomatch hst

theorem EnvTables.searchable (h : EnvTables s) : Searchable s := by
  intro i hi
  obtain ⟨dir, hdir, habove⟩ := h.space i hi
  exact ⟨dir, hdir, habove.below⟩

/-- **The direct map has an entry for every frame**, in every environment. -/
theorem EnvTables.readsIn (h : EnvTables s) (hpp : pp < s.vm.mm.npages) {i : ℕ}
    (hi : Searched s i) :
    ReadsIn s pp i (pdx kernBase + pp / 1024) (pp % 1024) := by
  obtain ⟨dir, hdir, habove⟩ := h.space i hi
  obtain ⟨hpde, hpte, haddr⟩ := h.direct pp hpp
  have hfits := h.fits
  have hbase : pdx kernBase = 960 := by decide
  have htop : pdx uTop = 955 := by decide
  have hvpt : pdx uVpt = 957 := by decide
  have hslot : pdx kernBase + pp / 1024 < nPdEntries := by
    rw [hbase, nPdEntries]
    omega
  have hword := habove.shared (pdx kernBase + pp / 1024) (by omega) hslot (by omega)
  refine ⟨dir, hdir, hslot, Nat.mod_lt _ (by decide), ?_, ?_, ?_⟩
  · rw [hword]
    exact hpde
  · rw [hword]
    exact hpte
  · rw [hword]
    exact haddr

/-- What is found is in the first environment. -/
theorem FirstRead.firstSearched {i j k : ℕ} (h : FirstRead s pp i j k) (ht : EnvTables s)
    (hpp : pp < s.vm.mm.npages) : FirstSearched s i :=
  ⟨h.searched, fun i' hi' hs => h.env i' hi' hs _ _ (ht.readsIn hpp hs)⟩

/-- The entry that is found is the one of a user. -/
theorem FirstRead.mapsSmall {i j k dir : ℕ} (h : FirstRead s pp i j k)
    (hdir : s.vm.pgdir i = some dir) {j' k' : ℕ} (hmap : MapsSmall s pp i j' k')
    (hbefore : ∀ j'' < j', isHuge (s.vm.mm.word dir j'') = true → ∀ k'', ¬ ReadsIn s pp i j'' k'') :
    MapsSmall s pp i j k := by
  have hle : j ≤ j' := by
    by_contra hlt
    exact h.slot j' (Nat.lt_of_not_le hlt) k' hmap.readsIn
  obtain ⟨dir', hdir', hsmall, -⟩ := hmap.small
  rw [hdir] at hdir'
  obtain rfl := Option.some.inj hdir'
  obtain ⟨dir', hdir', hread⟩ := h.reads
  rw [hdir] at hdir'
  obtain rfl := Option.some.inj hdir'
  refine ⟨h.searched.lt, h.searched.live, Nat.lt_of_le_of_lt hle hmap.low, dir, hdir, ?_, hread⟩
  rcases Nat.lt_or_eq_of_le hle with hlt | rfl
  · cases hhuge : isHuge (s.vm.mm.word dir j) with
    | false => rfl
    | true => exact absurd h.reads (hbefore j hlt hhuge k)
  · exact hsmall

/-- **When the search finds an entry of a user.** There is no environment to look at, and nobody
maps the page; or the first one that is looked at maps it, and no page of 4 MB before has a word
that is taken for an entry. -/
theorem findsUserMap_iff (h : EnvTables s) (hpp : pp < s.vm.mm.npages) (e : Option ℕ) :
    FindsUserMap s pp e ↔ (∀ i, ¬ Searched s i) ∧ (∀ i j k, ¬ MapsSmall s pp i j k) ∨
      ∃ i dir j k, FirstSearched s i ∧ s.vm.pgdir i = some dir ∧ MapsSmall s pp i j k ∧
        ∀ j' < j, isHuge (s.vm.mm.word dir j') = true → ∀ k', ¬ ReadsIn s pp i j' k' := by
  rcases @findPte_first s pp h.searchable e with ⟨hrun, hnone⟩ | ⟨i, j, k, dir, hfirst, hdir, hrun⟩
  · -- no environment is looked at, since each one has the direct map
    have hno : ∀ i, ¬ Searched s i := fun i hi => hnone i hi _ _ (h.readsIn hpp hi)
    constructor
    · rintro ⟨-, hsome⟩
      refine Or.inl ⟨hno, fun i j k hmap => ?_⟩
      obtain ⟨i', j', k', dir', -, -, hrun'⟩ := hsome ⟨i, j, k, hmap⟩
      rw [hrun] at hrun'
      exact nomatch (Prod.mk.inj (Except.ok.inj hrun')).1
    · rintro (⟨-, hmaps⟩ | ⟨i, dir, j, k, hi, -⟩)
      · exact ⟨fun _ => ⟨_, hrun⟩, fun ⟨i, j, k, hmap⟩ => absurd hmap (hmaps i j k)⟩
      · exact absurd hi.searched (hno i)
  · constructor
    · rintro ⟨hnull, hsome⟩
      by_cases hmaps : ∃ i j k, MapsSmall s pp i j k
      · obtain ⟨i', j', k', dir', hmap, hdir', hrun'⟩ := hsome hmaps
        rw [hrun] at hrun'
        obtain ⟨hptr, hrest⟩ := Prod.mk.inj (Except.ok.inj hrun')
        obtain ⟨henv, haddr⟩ := Prod.mk.inj hrest
        obtain rfl := Option.some.inj henv
        have hk : k = k' := congrArg PtePtr.idx (Option.some.inj hptr)
        subst hk
        have hj : j = j' := by
          obtain ⟨_, -, hread⟩ := hfirst.reads
          obtain ⟨_, -, -, hread'⟩ := hmap.small
          rw [← pdx_pgAddr hread.slot hread.idx, ← pdx_pgAddr hread'.slot hread.idx, haddr]
        subst hj
        exact Or.inr ⟨i, dir, j, k, hfirst.firstSearched h hpp, hdir, hmap, fun j' hj' _ =>
          hfirst.slot j' hj'⟩
      · obtain ⟨r, hnone⟩ := hnull fun i j k hmap => hmaps ⟨i, j, k, hmap⟩
        rw [hrun] at hnone
        exact nomatch (Prod.mk.inj (Except.ok.inj hnone)).1
    · rintro (⟨hno, -⟩ | ⟨i', dir', j', k', hi', hdir', hmap, hbefore⟩)
      · exact absurd hfirst.searched (hno i)
      · obtain rfl : i = i' := by
          have hi := hfirst.firstSearched h hpp
          rcases Nat.lt_trichotomy i i' with hlt | heq | hlt
          · exact absurd hi.searched (hi'.first i hlt)
          · exact heq
          · exact absurd hi'.searched (hi.first i' hlt)
        rw [hdir] at hdir'
        obtain rfl := Option.some.inj hdir'
        have hsmall := hfirst.mapsSmall hdir hmap hbefore
        exact ⟨fun hc => absurd hsmall (hc i j k), fun _ => ⟨i, j, k, dir, hsmall, hdir, hrun⟩⟩

end

/-! ### Two environments -/

/-- The words of memory: the frame 3 is the table of the direct map, the environment 2 maps the
frame 6 at `0x400000`, and the environment 3 maps the frame 7 there. -/
def mapWords (f i : ℕ) : BitVec 32 :=
  if f = 1 ∧ i = 1 then tablePde 2
  else if f = 4 ∧ i = 1 then tablePde 5
  else if f = 2 ∧ i = 0 then page2pa 6 ||| pteP ||| pteU
  else if f = 5 ∧ i = 0 then page2pa 7 ||| pteP ||| pteU
  else if f = 3 ∧ i < 8 then page2pa i ||| pteP
  else if (f = 1 ∨ f = 4) ∧ i = pdx kernBase then tablePde 3
  else if (f = 1 ∨ f = 4) ∧ i = pdx uVpt then tablePde f
  else 0

/-- A machine with these two environments. -/
def mapState : OutState where
  vm := { Vm.ofWords 8 frames_eight mapWords fun e => Space.ofDir (if e = 2 then 1 else 4) with
    kernPgdir := fun j => if j = pdx kernBase then tablePde 3 else 0 }
  cr3 := 2
  status e := if e = 2 ∨ e = 3 then .runnable else .free
  swapMap := ⟨fun _ => 0⟩
  userStores := []

theorem mapState_word (f i : ℕ) : mapState.vm.mm.word f i = mapWords f i := Mm.word_bytesOf rfl i

/-- The slots of the two directories. -/
theorem mapWords_dir {d : ℕ} (hd : d = 1 ∨ d = 4) (j : ℕ) : mapWords d j =
    if j = 1 then tablePde (d + 1) else if j = pdx kernBase then tablePde 3
      else if j = pdx uVpt then tablePde d else 0 := by
  rcases hd with rfl | rfl
  · simp [mapWords]
  · simp [mapWords]

/-- The entries in the slots of the users. -/
theorem mapWords_small {d pp j k : ℕ} (hd : d = 1 ∨ d = 4) (hlow : j < pdx uTop)
    (hread : Reads mapState.vm.mm d pp j k) :
    j = 1 ∧ k = 0 ∧ page2pa pp = page2pa (if d = 1 then 6 else 7) := by
  have hpde := hread.pde
  have hj : j = 1 := by
    by_contra hne
    rw [mapState_word, mapWords_dir hd, if_neg hne,
      if_neg (fun hc => absurd hlow (by rw [hc]; decide)),
      if_neg (fun hc => absurd hlow (by rw [hc]; decide))] at hpde
    exact absurd hpde (by decide)
  subst hj
  have hpte := hread.pte
  have haddr := hread.addr
  have htable : pgnum (mapState.vm.mm.word d 1) = d + 1 := by
    rw [mapState_word, mapWords_dir hd, if_pos rfl]
    exact pgnum_tablePde (by omega)
  rw [htable, mapState_word] at hpte haddr
  have hk : k = 0 := by
    by_contra hne
    have hzero : mapWords (d + 1) k = 0 := by
      rcases hd with rfl | rfl
      · simp [mapWords, hne]
      · simp [mapWords, hne]
    rw [hzero] at hpte
    exact absurd hpte (by decide)
  subst hk
  refine ⟨rfl, rfl, haddr.symm.trans ?_⟩
  rcases hd with rfl | rfl
  · decide
  · decide

theorem mapState_pgdir (e : ℕ) :
    ∃ d, mapState.vm.pgdir e = some d ∧ (d = 1 ∨ d = 4) ∧ (e = 2 → d = 1) := by
  refine ⟨if e = 2 then 1 else 4, rfl, ?_, fun he => if_pos he⟩
  split
  · exact Or.inl rfl
  · exact Or.inr rfl

theorem mapState_tables : EnvTables mapState := by
  refine ⟨by decide, fun pp hpp => ?_, fun i _ => ?_⟩
  · have hpp : pp < 8 := hpp
    have hslot : mapState.vm.kernPgdir (pdx kernBase + pp / 1024) = tablePde 3 := by
      rw [Nat.div_eq_of_lt (by omega)]
      rfl
    have hword : mapWords 3 pp = page2pa pp ||| pteP := by simp [mapWords, hpp]
    rw [hslot, pgnum_tablePde (by decide), Nat.mod_eq_of_lt (by omega), mapState_word, hword]
    have hall : ∀ q < 8, isPresent (page2pa q ||| pteP) = true ∧
        pteAddr (page2pa q ||| pteP) = page2pa q := by decide
    exact ⟨isPresent_tablePde 3, hall pp hpp⟩
  · obtain ⟨d, hdir, hd, -⟩ := mapState_pgdir i
    refine ⟨d, hdir, fun j hj _ hvpt => ?_, fun j _ hpde => ?_⟩
    · have hne : j ≠ 1 := by
        rintro rfl
        exact absurd hj (by decide)
      rw [mapState_word, mapWords_dir hd, if_neg hne, if_neg hvpt]
      rfl
    · rw [mapState_word, mapWords_dir hd] at hpde ⊢
      have hnp : mapState.vm.mm.npages = 8 := rfl
      rw [hnp]
      by_cases h₁ : j = 1
      · rw [if_pos h₁, pgnum_tablePde (by omega)]
        omega
      · rw [if_neg h₁] at hpde ⊢
        by_cases h₂ : j = pdx kernBase
        · rw [if_pos h₂, pgnum_tablePde (by decide)]
          decide
        · rw [if_neg h₂] at hpde ⊢
          by_cases h₃ : j = pdx uVpt
          · rw [if_pos h₃, pgnum_tablePde (by omega)]
            omega
          · rw [if_neg h₃] at hpde
            exact absurd hpde (by decide)

/-- The two pages. -/
theorem mapState_maps {pp e d : ℕ} (hlt : e < nEnv) (hlive : mapState.status e ≠ .free)
    (hdir : mapState.vm.pgdir e = some d) (hd : d = 1 ∧ pp = 6 ∨ d = 4 ∧ pp = 7) :
    MapsSmall mapState pp e 1 0 := by
  have hslot : mapState.vm.mm.word d 1 = tablePde (d + 1) := by
    rw [mapState_word, mapWords_dir (hd.imp And.left And.left), if_pos rfl]
  have htable : pgnum (mapState.vm.mm.word d 1) = d + 1 := by
    rw [hslot]
    exact pgnum_tablePde (by omega)
  refine ⟨hlt, hlive, by decide, d, hdir, by rw [hslot, isHuge_tablePde], by decide, by decide,
    by rw [hslot, isPresent_tablePde], ?_, ?_⟩
  · rw [htable, mapState_word]
    rcases hd with ⟨rfl, rfl⟩ | ⟨rfl, rfl⟩
    · decide
    · decide
  · rw [htable, mapState_word]
    rcases hd with ⟨rfl, rfl⟩ | ⟨rfl, rfl⟩
    · decide
    · decide

/-- The environment 2 is the first one. -/
theorem mapState_first : FirstSearched mapState 2 := by
  refine ⟨⟨by decide, by decide, rfl⟩, fun i hi hs => ?_⟩
  have hthread := hs.thread
  rw [nKthreads] at hthread
  omega

/-- The page of the first environment is found. -/
theorem findsUserMap_first : FindsUserMap mapState 6 none := by
  refine (findsUserMap_iff mapState_tables (by decide) none).2
    (Or.inr ⟨2, 1, 1, 0, mapState_first, rfl, ?_, ?_⟩)
  · exact @mapState_maps 6 2 1 (by decide) (by decide) rfl (Or.inl ⟨rfl, rfl⟩)
  · intro j hj hhuge
    obtain rfl : j = 0 := by omega
    rw [mapState_word] at hhuge
    exact absurd hhuge (by decide)

/-- **The page of the second environment is not found**: the search ends at the direct map of the
first one. -/
theorem second_not_found :
    EnvTables mapState ∧ MapsSmall mapState 7 3 1 0 ∧ ¬ FindsUserMap mapState 7 none := by
  have hmap : MapsSmall mapState 7 3 1 0 :=
    @mapState_maps 7 3 4 (by decide) (by decide) rfl (Or.inr ⟨rfl, rfl⟩)
  refine ⟨mapState_tables, hmap, fun hfinds => ?_⟩
  obtain ⟨i, j, k, dir, hmap', hdir, hrun⟩ := hfinds.2 ⟨3, 1, 0, hmap⟩
  rcases @findPte_first mapState 7 mapState_tables.searchable none
    with ⟨hrun', -⟩ | ⟨i', j', k', dir', hfirst, -, hrun'⟩
  · rw [hrun'] at hrun
    exact nomatch (Prod.mk.inj (Except.ok.inj hrun)).1
  · rw [hrun'] at hrun
    obtain rfl : i' = i := Option.some.inj (Prod.mk.inj (Prod.mk.inj (Except.ok.inj hrun)).2).1
    -- the environment is the first one, which does not map the page
    obtain rfl : i' = 2 := by
      by_contra hne
      have hthread := hfirst.searched.thread
      rw [nKthreads] at hthread
      exact (hfirst.firstSearched mapState_tables (by decide)).first 2 (by omega)
        mapState_first.searched
    obtain ⟨d, hdir', -, hread⟩ := hmap'.small
    obtain rfl : 1 = d := Option.some.inj hdir'
    obtain ⟨-, -, haddr⟩ := mapWords_small (Or.inl rfl) hmap'.low hread
    exact absurd haddr (by decide)

end Jos
