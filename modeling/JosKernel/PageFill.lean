/-
**One page, whatever else is mapped.**

`page_insert` and `page_remove` of a 4 KB page in an address space in which anything may be mapped:
4 KB pages, 4 MB pages, entries of the swap area. Only the page tables have to be in order.

Main definitions:

* `Jos.DirInv` — the page tables are frames of their own, and none of them is free;
* `Jos.Mm.MapsTo` — the frame of a 4 KB page;
* `Jos.Opened`, `Jos.PageGone`, `Jos.PagePut` — **what a walk, a removal and an insertion leave
  behind**.

Main results:

* `Jos.pgdirWalk_opened`, `Jos.pageRemove_gone`, `Jos.pageInsert_placed` — the three functions.
-/

import JosKernel.Sharing

set_option relaxedAutoImplicit false
set_option autoImplicit false

namespace Jos

open LinkedList Outcome

/-! ### The page tables and the free list -/

/-- **The directory `d` beside the free list `l`**: its page tables are frames of their own, and
none of them is free. -/
structure DirInv (m : Mm) (d : ℕ) (l : List ℕ) : Prop extends TlbTables m d where
  free : FreeInv m l
  busy : ∀ g, m.WalkFrame d g → g ∉ l

/-- The 4 KB page `q` is mapped to the frame `g`. -/
def Mm.MapsTo (m : Mm) (d q g : ℕ) : Prop :=
  ∃ w, m.leaf d q = some (w, false) ∧ isPresent w = true ∧ pgnum w = g

theorem Mm.MapsTo.unique {m : Mm} {d q g g' : ℕ} (h : m.MapsTo d q g) (h' : m.MapsTo d q g') :
    g = g' := by
  obtain ⟨w, hw, -, rfl⟩ := h
  obtain ⟨w', hw', -, rfl⟩ := h'
  rw [hw] at hw'
  rw [(Prod.mk.inj (Option.some.inj hw')).1]

theorem Mm.leafPtr_congr {m m' : Mm} {d q : ℕ} (h : m'.word d (q / 1024) = m.word d (q / 1024)) :
    m'.leafPtr d q = m.leafPtr d q := by
  rw [Mm.leafPtr, Mm.leafPtr, h]

/-- Nothing stops the kernel on a walk. -/
def Sound (m : Mm) (d : ℕ) (l : List ℕ) : Prop := Steady m l ∧ ∀ g, m.WalkFrame d g → g < m.npages

theorem vpn_div_lt (va : BitVec 32) : vpn va / 1024 < 1024 := by
  have := vpn_lt va
  omega

/-- A page table below `UTOP` is a frame of the walk. -/
theorem Mm.HasTable.walkFrame {m : Mm} {d i : ℕ} (h : m.HasTable d i) (hi : i < pdx uTop) :
    m.WalkFrame d (pgnum (m.word d i)) := by
  refine Or.inr ⟨i, ?_, h, rfl⟩
  rw [pdx_uTop] at hi
  omega

/-- **The directory has kept its entries**, and where it had none there may be a new page table. -/
def DirGrows (m m' : Mm) (d : ℕ) : Prop :=
  ∀ i, m'.word d i = m.word d i ∨ isPresent (m.word d i) = false ∧ ∃ t, m'.word d i = tablePde t

namespace DirGrows

variable {m m' m'' : Mm} {d : ℕ}

theorem of_eq (h : ∀ i, m'.word d i = m.word d i) : DirGrows m m' d := fun i => Or.inl (h i)

theorem trans (h : DirGrows m m' d) (h' : DirGrows m' m'' d) : DirGrows m m'' d := by
  intro i
  rcases h i with hsame | ⟨habs, t, ht⟩
  · rw [← hsame]
    exact h' i
  · rcases h' i with hsame' | ⟨habs', -⟩
    · exact Or.inr ⟨habs, t, hsame'.trans ht⟩
    · rw [ht, isPresent_tablePde] at habs'
      exact nomatch habs'

end DirGrows

/-! ### An entry of a page table is written -/

/-- **The page `q` has the entry `w` now**, and nothing else has changed for the walks of `d`. -/
structure LeafSet (m m' : Mm) (d q : ℕ) (w : BitVec 32) : Prop where
  tables : TlbTables m' d
  dir : ∀ i, m'.word d i = m.word d i
  leaf_self : m'.leaf d q = some (w, false)
  leaf_other : ∀ p ≠ q, p / 1024 < pdx uTop → m'.leaf d p = m.leaf d p
  walk : ∀ g, m'.WalkFrame d g ↔ m.WalkFrame d g
  keep : ∀ g, ¬ m.WalkFrame d g → m'.mem g = m.mem g

theorem leafSet_of_write {m m' : Mm} {d q : ℕ} {w w' : BitVec 32} (ht : TlbTables m d)
    (hq : q / 1024 < pdx uTop) (hleaf : m.leaf d q = some (w, false))
    (hmem : m'.mem = (m.setWord (m.leafPtr d q).frame (m.leafPtr d q).idx w').mem)
    (hmark : ∀ g, m.WalkFrame d g → (m'.pages g).has poisonAfterFree = false) :
    LeafSet m m' d q w' := by
  obtain ⟨hP, hH, -⟩ := Mm.leaf_eq_some hleaf
  rw [Mm.leafPtr_small hH] at hmem
  dsimp only at hmem
  generalize htf : pgnum (m.word d (q / 1024)) = t at hmem
  have htd : t ≠ d := by
    rw [← htf]
    exact ht.user _ hq ⟨hP, hH⟩
  have hword : ∀ g k, m'.word g k = if g = t ∧ k = q % 1024 then w' else m.word g k := by
    intro g k
    rw [← Mm.word_setWord]
    exact Mm.word_of_mem (congrFun hmem g) k
  have hdir : ∀ i, m'.word d i = m.word d i :=
    fun i => (hword d i).trans (if_neg fun hc => htd hc.1.symm)
  have hsame : SameTables m m' d := by
    intro i
    rw [Mm.HasTable, Mm.HasTable, hdir]
    exact ⟨Iff.rfl, fun _ => rfl⟩
  refine ⟨ht.congr hsame hmark, hdir, ?_, fun p hp hlow => ?_, fun g => hsame.walkFrame_iff,
    fun g hg => ?_⟩
  · unfold Mm.leaf
    rw [hdir, if_pos hP, if_neg (by rw [hH]; exact Bool.false_ne_true), htf, hword,
      if_pos ⟨rfl, rfl⟩]
  · unfold Mm.leaf
    rw [hdir]
    cases hPp : isPresent (m.word d (p / 1024)) with
    | false => rfl
    | true =>
        cases hHp : isHuge (m.word d (p / 1024)) with
        | true => rfl
        | false =>
            have hother : ¬ (pgnum (m.word d (p / 1024)) = t ∧ p % 1024 = q % 1024) := by
              rintro ⟨heq, hmod⟩
              rw [← htf] at heq
              rw [pdx_uTop] at hlow
              have hgroup := ht.apart _ hq _ (by omega) ⟨hP, hH⟩ ⟨hPp, hHp⟩ heq.symm
              exact hp (by omega)
            rw [hword, if_neg hother]
  · have hgt : g ≠ t := by
      rintro rfl
      rw [← htf] at hg
      exact hg (Mm.HasTable.walkFrame (i := q / 1024) ⟨hP, hH⟩ hq)
    rw [hmem]
    exact Function.update_of_ne hgt ..

/-! ### A new page table -/

namespace AddedTable

variable {m m' : Mm} {d t i : ℕ}

theorem pgnum_entry (h : AddedTable m m' d t i) : pgnum (m'.word d i) = t := by
  rw [h.entry]
  exact pgnum_tablePde h.lt

/-- The page tables are the old ones and the new one. -/
theorem hasTable_iff (h : AddedTable m m' d t i) (j : ℕ) :
    m'.HasTable d j ↔ j = i ∨ m.HasTable d j := by
  by_cases hj : j = i
  · subst hj
    rw [Mm.HasTable, h.entry]
    exact iff_of_true ⟨isPresent_tablePde t, isHuge_tablePde t⟩ (Or.inl rfl)
  · rw [Mm.HasTable, h.other j hj]
    exact ⟨Or.inr, fun hc => hc.resolve_left hj⟩

theorem pgnum_old (h : AddedTable m m' d t i) {j : ℕ} (hj : m.HasTable d j) :
    pgnum (m'.word d j) = pgnum (m.word d j) := by
  have hne : j ≠ i := by
    rintro rfl
    have habs := h.absent
    rw [hj.1] at habs
    cases habs
  rw [h.other j hne]

theorem walkFrame_iff (h : AddedTable m m' d t i) (hi : i < 1024) (g : ℕ) :
    m'.WalkFrame d g ↔ m.WalkFrame d g ∨ g = t := by
  constructor
  · rintro (hg | ⟨j, hj, htj, rfl⟩)
    · exact Or.inl (Or.inl hg)
    · rcases (h.hasTable_iff j).1 htj with rfl | htj
      · exact Or.inr h.pgnum_entry
      · rw [h.pgnum_old htj]
        exact Or.inl (Or.inr ⟨j, hj, htj, rfl⟩)
  · rintro ((hg | ⟨j, hj, htj, rfl⟩) | rfl)
    · exact Or.inl hg
    · exact Or.inr ⟨j, hj, (h.hasTable_iff j).2 (Or.inr htj), h.pgnum_old htj⟩
    · exact Or.inr ⟨i, hi, (h.hasTable_iff i).2 (Or.inl rfl), h.pgnum_entry⟩

/-- Page tables that were frames of their own still are, if the new one was no page table. -/
theorem tables (h : AddedTable m m' d t i) (hi : i < 1024) (ht : TlbTables m d)
    (hnew : ¬ m.WalkFrame d t)
    (hmark : ∀ g, m'.WalkFrame d g → (m'.pages g).has poisonAfterFree = false) :
    TlbTables m' d := by
  refine ⟨hmark, fun j hj htj => ?_, fun a ha b hb hta htb heq => ?_⟩
  · rcases (h.hasTable_iff j).1 htj with rfl | htj
    · rw [h.pgnum_entry]
      exact h.ne.symm
    · rw [h.pgnum_old htj]
      exact ht.user j hj htj
  · have hlow : a < 1024 := by
      rw [pdx_uTop] at ha
      omega
    rcases (h.hasTable_iff a).1 hta with rfl | hta'
    · rcases (h.hasTable_iff b).1 htb with rfl | htb'
      · rfl
      · rw [h.pgnum_entry, h.pgnum_old htb'] at heq
        exact (hnew (Or.inr ⟨b, hb, htb', heq.symm⟩)).elim
    · rcases (h.hasTable_iff b).1 htb with rfl | htb'
      · rw [h.pgnum_entry, h.pgnum_old hta'] at heq
        exact (hnew (Or.inr ⟨a, hlow, hta', heq⟩)).elim
      · rw [h.pgnum_old hta', h.pgnum_old htb'] at heq
        exact ht.apart a ha b hb hta' htb' heq

/-- The pages of the new table have an entry now, which is zero; all others have the one they
had. -/
theorem leaf (h : AddedTable m m' d t i) (ht : TlbTables m d) (hnew : ¬ m.WalkFrame d t) {p : ℕ}
    (hp : p / 1024 < pdx uTop) : m'.leaf d p = m.leaf d p ∨
      p / 1024 = i ∧ m.leaf d p = none ∧ m'.leaf d p = some (0, false) := by
  by_cases hgroup : p / 1024 = i
  · refine Or.inr ⟨hgroup, Mm.leaf_eq_none.2 (by rw [hgroup]; exact h.absent), ?_⟩
    rw [Mm.leaf_of_table h.lt (by rw [hgroup]; exact h.entry), h.zero]
  · refine Or.inl ?_
    unfold Mm.leaf
    rw [h.other _ hgroup]
    cases hPp : isPresent (m.word d (p / 1024)) with
    | false => rfl
    | true =>
        cases hHp : isHuge (m.word d (p / 1024)) with
        | true => rfl
        | false =>
            have htp : m.HasTable d (p / 1024) := ⟨hPp, hHp⟩
            have hne : pgnum (m.word d (p / 1024)) ≠ t := by
              intro hc
              exact hnew (hc ▸ htp.walkFrame hp)
            rw [Mm.word_of_mem (h.mem _ (ht.user _ hp htp) hne)]

theorem dir (h : AddedTable m m' d t i) : DirGrows m m' d := by
  intro j
  by_cases hj : j = i
  · rw [hj]
    exact Or.inr ⟨h.absent, t, h.entry⟩
  · exact Or.inl (h.other j hj)

end AddedTable

/-! ### A walk that may add a page table -/

/-- **What `pgdir_walk` leaves behind** when it has found a page table for the page `q`, or added
one. -/
structure Opened (s s' : Vm) (d q : ℕ) (l l' : List ℕ) : Prop where
  inv : DirInv s'.mm d l'
  table : s'.mm.HasTable d (q / 1024)
  leaf : ∀ p, p / 1024 < pdx uTop → s'.mm.leaf d p = s.mm.leaf d p ∨
    p / 1024 = q / 1024 ∧ s.mm.leaf d p = none ∧ s'.mm.leaf d p = some (0, false)
  dir : DirGrows s.mm s'.mm d
  walk : ∀ g, s.mm.WalkFrame d g → s'.mm.WalkFrame d g
  walkNew : ∀ g, s'.mm.WalkFrame d g → s.mm.WalkFrame d g ∨ g ∈ l
  keep : ∀ g, ¬ s'.mm.WalkFrame d g → s'.mm.mem g = s.mm.mem g
  list : ∀ g ∈ l', g ∈ l
  pages : ∀ g ∉ l, (s'.mm.pages g).pageFlags = (s.mm.pages g).pageFlags ∧ s'.ref g = s.ref g
  npages : s'.mm.npages = s.mm.npages
  space : SameSpaces s s'
  sound : Sound s.mm d l → Sound s'.mm d l'

/-- The directory gets a new page table. -/
theorem Opened.of_newTable {s : Vm} {d t : ℕ} {l : List ℕ} {va : BitVec 32} {m₁ : Mm}
    (h : DirInv s.mm d l) (habs : isPresent (s.mm.word d (vpn va / 1024)) = false) (htl : t ∈ l)
    (htaken : Taken s.mm m₁ allocZero t) (hfree : FreeInv m₁ (l.erase t))
    (hst : Steady s.mm l → Steady m₁ (l.erase t)) {s' : Vm}
    (hs' : s' = (({ s with mm := m₁ } : Vm).writePte ⟨d, vpn va / 1024⟩ va t (tablePde t)).setRef t
      ((({ s with mm := m₁ } : Vm).writePte ⟨d, vpn va / 1024⟩ va t (tablePde t)).ref t + 1)) :
    Opened s s' d (vpn va) l (l.erase t) := by
  have hnew : ¬ s.mm.WalkFrame d t := fun hc => h.busy t hc htl
  have hadd : AddedTable s.mm s'.mm d t (vpn va / 1024) :=
    addedTable_of_taken (fun hc => hnew (Or.inl hc.symm))
      (Nat.lt_of_lt_of_le (h.free.listed t htl).1 s.mm.npages_le) habs htaken hs'
  have hwalk := hadd.walkFrame_iff (vpn_div_lt va)
  have hflags : ∀ g, (s'.mm.pages g).pageFlags = (m₁.pages g).pageFlags := by
    intro g
    rw [hs']
    exact Vm.flags_setRef ..
  have hoff : t ∉ l.erase t := fun hc => ((h.free.chain.nodup.mem_erase_iff).1 hc).1 rfl
  have hfree' : FreeInv s'.mm (l.erase t) := by
    rw [hs']
    exact FreeInv.setRef_vm _ (FreeInv.setWord _ _ _ hfree) hoff
  have hnp : s'.mm.npages = s.mm.npages := by
    rw [hs']
    exact htaken.npages
  have htables : TlbTables s'.mm d := by
    refine hadd.tables (vpn_div_lt va) h.toTlbTables hnew fun g hg => ?_
    rw [PageInfo.has, hflags]
    rcases (hwalk g).1 hg with hg | rfl
    · rw [htaken.flags g fun hc => hnew (hc ▸ hg)]
      exact h.unmarked g hg
    · rw [htaken.own]
      decide
  refine
    { inv := ⟨htables, hfree', fun g hg hc => ?_⟩
      table := (hadd.hasTable_iff _).2 (Or.inl rfl)
      leaf := fun p hp => hadd.leaf h.toTlbTables hnew hp
      dir := hadd.dir
      walk := fun g hg => (hwalk g).2 (Or.inl hg)
      walkNew := fun g hg => ?_
      keep := fun g hg => ?_
      list := fun g hg => List.mem_of_mem_erase hg
      pages := fun g hg => ?_
      npages := hnp
      space := ?_
      sound := fun hsound => ⟨?_, fun g hg => ?_⟩ }
  · rcases (hwalk g).1 hg with hg | rfl
    · exact h.busy g hg (List.mem_of_mem_erase hc)
    · exact hoff hc
  · refine ((hwalk g).1 hg).imp_right ?_
    rintro rfl
    exact htl
  · have hg' : ¬ (s.mm.WalkFrame d g ∨ g = t) := fun hc => hg ((hwalk g).2 hc)
    exact hadd.mem g (fun hc => hg' (Or.inl (Or.inl hc))) fun hc => hg' (Or.inr hc)
  · have hgt : g ≠ t := fun hc => hg (hc ▸ htl)
    refine ⟨(hflags g).trans (htaken.flags g hgt), ?_⟩
    rw [hs']
    exact (Vm.ppRef_setRef ..).trans ((if_neg hgt).trans (htaken.ref g))
  · rw [hs']
    exact ⟨rfl, rfl, rfl, rfl⟩
  · rw [hs']
    exact ((hst hsound.1).setWord _ _ _).setRef _
  · rw [hnp]
    rcases (hwalk g).1 hg with hg | rfl
    · exact hsound.2 g hg
    · exact (h.free.listed _ htl).1

/-- **`pgdir_walk(pgdir, va, CREATE_NORMAL)`** below `UTOP`, unless there is a 4 MB page. -/
theorem pgdirWalk_opened {s : Vm} {d : ℕ} {l : List ℕ} {va : BitVec 32} (h : DirInv s.mm d l)
    (hlow : vpn va / 1024 < pdx uTop)
    (hsmall : isPresent (s.mm.word d (vpn va / 1024)) = true →
      isHuge (s.mm.word d (vpn va / 1024)) = false) :
    Ends (fun _ => ¬ Sound s.mm d l)
      (fun r => (r = (none, s) ∧ l = [] ∧ s.mm.leaf d (vpn va) = none) ∨
        ∃ l', r.1 = some (r.2.mm.leafPtr d (vpn va)) ∧ Opened s r.2 d (vpn va) l l')
      (pgdirWalk s (some d) va .normal) := by
  unfold pgdirWalk
  dsimp only
  rw [pdx_eq]
  refine ends_ite (fun hP => ?_) fun hP => ?_
  · have hP : isPresent (s.mm.word d (vpn va / 1024)) = true := hP
    have htab : s.mm.HasTable d (vpn va / 1024) := ⟨hP, hsmall hP⟩
    have hH : isHuge (s.pte ⟨d, vpn va / 1024⟩) = false := htab.2
    unfold walkEnd kaddr
    rw [hH, Bool.or_false, if_neg (by decide), pgnum_pteAddr]
    simp only [ends_bind]
    refine ends_ite (fun hle hsound => ?_) fun _ => Or.inr ⟨l, ?_, ?_⟩
    · exact Nat.not_lt.2 hle (hsound.2 _ (htab.walkFrame hlow))
    · rw [Mm.leafPtr_small htab.2, ptx_eq]
      rfl
    · exact ⟨h, htab, fun _ _ => Or.inl rfl, .of_eq fun _ => rfl, fun _ hg => hg, fun _ hg =>
        Or.inl hg, fun _ _ => rfl, fun _ hg => hg,
        fun _ _ => ⟨rfl, rfl⟩, rfl, ⟨rfl, rfl, rfl, rfl⟩, id⟩
  · have habs : isPresent (s.mm.word d (vpn va / 1024)) = false := Bool.eq_false_of_not_eq_true hP
    rw [ends_bind]
    refine (pageAlloc_taken h.free (by decide) (by decide)).mono
      (fun _ hns hsound => hns hsound.1) ?_
    rintro ⟨pg, m₁⟩ (⟨heq, hl⟩ | ⟨t, htl, hpg, htaken, hfree, hst⟩)
    · obtain ⟨rfl, rfl⟩ := Prod.mk.inj heq
      exact Or.inl ⟨rfl, hl, Mm.leaf_eq_none.2 habs⟩
    · obtain rfl : pg = some t := hpg
      have hopen := Opened.of_newTable h habs htl htaken hfree hst rfl
      have ht := h.free.listed t htl
      have htp : t < 2 ^ 20 := Nat.lt_of_lt_of_le ht.1 s.mm.npages_le
      have hself := Vm.word_writePte ({ s with mm := m₁ } : Vm) ⟨d, vpn va / 1024⟩ va (tablePde t) t
        d (vpn va / 1024)
      rw [if_pos ⟨rfl, rfl⟩] at hself
      have hnp : m₁.npages = s.mm.npages := htaken.npages
      dsimp only
      change Ends _ _ (do
        let pte ← walkEnd
            ((({ s with mm := m₁ } : Vm).writePte ⟨d, vpn va / 1024⟩ va t (tablePde t)).setRef t
          ((({ s with mm := m₁ } : Vm).writePte ⟨d, vpn va / 1024⟩ va t (tablePde t)).ref t + 1))
            ⟨d, vpn va / 1024⟩ va false
        pure (some pte,
          (({ s with mm := m₁ } : Vm).writePte ⟨d, vpn va / 1024⟩ va t (tablePde t)).setRef t
          ((({ s with mm := m₁ } : Vm).writePte ⟨d, vpn va / 1024⟩ va t (tablePde t)).ref t + 1)))
      generalize hs₃ :
        (({ s with mm := m₁ } : Vm).writePte ⟨d, vpn va / 1024⟩ va t (tablePde t)).setRef t
        ((({ s with mm := m₁ } : Vm).writePte ⟨d, vpn va / 1024⟩ va t (tablePde t)).ref t + 1) =
          s₃ at hopen
      have hself₃ : s₃.mm.word d (vpn va / 1024) = tablePde t := by
        rw [← hs₃]
        exact hself
      have hnp₃ : s₃.mm.npages = s.mm.npages := by
        rw [← hs₃]
        exact hnp
      have hpte : s₃.pte ⟨d, vpn va / 1024⟩ = tablePde t := hself₃
      unfold walkEnd kaddr
      rw [hpte, isHuge_tablePde, Bool.or_false, if_neg (by decide), pgnum_pteAddr,
        pgnum_tablePde htp, hnp₃,
        if_neg (Nat.not_le.2 ht.1)]
      refine Or.inr ⟨l.erase t, ?_, hopen⟩
      change some (⟨t, ptx va⟩ : PtePtr) = some (s₃.mm.leafPtr d (vpn va))
      rw [Mm.leafPtr_small (by rw [hself₃]; exact isHuge_tablePde t), hself₃,
        pgnum_tablePde htp, ptx_eq]

/-! ### A 4 KB page is removed -/

/-- **What `page_remove` leaves behind** for the page `q`, in the frame `g`. -/
structure PageGone (s s' : Vm) (d q g : ℕ) (l l' : List ℕ) : Prop where
  inv : DirInv s'.mm d l'
  ptr : s'.mm.leafPtr d q = s.mm.leafPtr d q
  leaf_self : s'.mm.leaf d q = some (0, false)
  leaf_other : ∀ p ≠ q, p / 1024 < pdx uTop → s'.mm.leaf d p = s.mm.leaf d p
  dir : ∀ i, s'.mm.word d i = s.mm.word d i
  walk : ∀ f, s'.mm.WalkFrame d f ↔ s.mm.WalkFrame d f
  keep : ∀ f ≠ g, ¬ s.mm.WalkFrame d f → s'.mm.mem f = s.mm.mem f
  list : ∀ f ∈ l', f ∈ l ∨ f = g
  pages : ∀ f ≠ g, (s'.mm.pages f).pageFlags = (s.mm.pages f).pageFlags ∧ s'.ref f = s.ref f
  npages : s'.mm.npages = s.mm.npages
  space : SameSpaces s s'

theorem pageRemove_gone {s : Vm} {d g : ℕ} {l : List ℕ} {va w : BitVec 32} (h : DirInv s.mm d l)
    (hlow : vpn va / 1024 < pdx uTop) (hleaf : s.mm.leaf d (vpn va) = some (w, false))
    (hg : pgnum w = g) (hheld : s.mm.Held g) (haside : ¬ s.mm.WalkFrame d g) :
    Ends (fun _ => True) (fun s' => ∃ l', PageGone s s' d (vpn va) g l l')
      (pageRemove s (some d) va) := by
  obtain ⟨hP, hH, hw⟩ := Mm.leaf_eq_some hleaf
  have hpte : s.pte (s.mm.leafPtr d (vpn va)) = w := hw.symm
  have hgl : g ∉ l := h.free.not_mem_of_held hheld
  have hne : ∀ f, s.mm.WalkFrame d f → f ≠ g := fun f hf hc => haside (hc ▸ hf)
  refine pageRemove_rule (P := fun s₂ => ∃ l', FreeInv s₂.mm l' ∧ (∀ f ∈ l', f ∈ l ∨ f = g) ∧
    (∀ f ≠ g, s₂.mm.mem f = s.mm.mem f) ∧
    (∀ f ≠ g, (s₂.mm.pages f).pageFlags = (s.mm.pages f).pageFlags ∧ s₂.ref f = s.ref f) ∧
    s₂.mm.npages = s.mm.npages ∧ SameSpaces s s₂)
    (fun hnone => ?_) (fun _ pp _ hpp _ => ?_) ?_
  · rw [hleaf] at hnone
    exact nomatch hnone
  · obtain rfl : pp = g := by rw [← hpp, hpte, hg]
    generalize hs₁ : s.setRef pp (s.ref pp - 1) = s₁
    have hmem₁ : s₁.mm.mem = s.mm.mem := by
      rw [← hs₁]
      rfl
    have hflags₁ : ∀ f, (s₁.mm.pages f).pageFlags = (s.mm.pages f).pageFlags := by
      intro f
      rw [← hs₁]
      exact Vm.flags_setRef ..
    have href₁ : ∀ f ≠ pp, s₁.ref f = s.ref f := by
      intro f hf
      rw [← hs₁]
      exact (Vm.ppRef_setRef ..).trans (if_neg hf)
    have hfree₁ : FreeInv s₁.mm l := by
      rw [← hs₁]
      exact FreeInv.setRef_vm _ h.free hgl
    have hnp₁ : s₁.mm.npages = s.mm.npages ∧ SameSpaces s s₁ := by
      rw [← hs₁]
      exact ⟨rfl, ⟨rfl, rfl, rfl, rfl⟩⟩
    refine ends_ite (fun hzero => ?_) fun _ => ⟨l, hfree₁, fun f hf => Or.inl hf, fun f _ =>
      congrFun hmem₁ f,
      fun f hf => ⟨hflags₁ f, href₁ f hf⟩, hnp₁.1, hnp₁.2⟩
    have hheld₁ : s₁.mm.Held pp := hheld.congr hnp₁.1 (hflags₁ pp)
    refine (releasePage_given hfree₁ hheld₁ hzero).mono (fun _ _ => True.intro) ?_
    rintro s₂ ⟨m, rfl, hgiven, hfree, -⟩
    refine ⟨pp :: l, hfree, fun f hf => (List.mem_cons.1 hf).symm, fun f hf => ?_, fun f hf =>
      ⟨?_, ?_⟩,
      hgiven.npages.trans hnp₁.1, ⟨hnp₁.2.envs, hnp₁.2.kernPgdir, hnp₁.2.image, hnp₁.2.envFrame⟩⟩
    · exact (hgiven.mem f hf).trans (congrFun hmem₁ f)
    · exact (hgiven.flags f hf).trans (hflags₁ f)
    · exact (hgiven.ref f hf).trans (href₁ f hf)
  · -- the last lines, after the page has been released or not
    rintro s₂ ⟨l', hfree, hlist, hmem, hpages, hnp, hspace⟩
    have hdir : ∀ i, s₂.mm.word d i = s.mm.word d i := Mm.word_of_mem (hmem d (hne d (Or.inl rfl)))
    have hsame : SameTables s.mm s₂.mm d := SameTables.of_mem (hmem d (hne d (Or.inl rfl)))
    have hmark : ∀ f, s.mm.WalkFrame d f → (s₂.mm.pages f).has poisonAfterFree = false := by
      intro f hf
      rw [PageInfo.has, (hpages f (hne f hf)).1]
      exact h.unmarked f hf
    have htab₂ : TlbTables s₂.mm d := h.toTlbTables.congr hsame hmark
    have hleaf₂ : ∀ p, p / 1024 < pdx uTop → s₂.mm.leaf d p = s.mm.leaf d p := by
      intro p hp
      refine Mm.leaf_congr (fun f hf => hmem f ?_) hp
      rcases hf with rfl | ⟨i, hi, hti, rfl⟩
      · exact hne _ (Or.inl rfl)
      · exact hne _ (hti.walkFrame hi)
    refine ⟨fun hnone => ?_, fun _ => ?_⟩
    · rw [hleaf₂ _ hlow, hleaf] at hnone
      exact nomatch hnone
    have hset : LeafSet s₂.mm (s₂.setPte (s₂.mm.leafPtr d (vpn va)) 0).mm d (vpn va) 0 :=
      leafSet_of_write htab₂ hlow ((hleaf₂ _ hlow).trans hleaf) rfl fun f hf =>
        hmark f (hsame.walkFrame_iff.1 hf)
    have hwalk : ∀ f, (s₂.setPte (s₂.mm.leafPtr d (vpn va)) 0).mm.WalkFrame d f ↔
        s.mm.WalkFrame d f :=
      fun f => (hset.walk f).trans hsame.walkFrame_iff
    have hptr' : (s₂.setPte (s₂.mm.leafPtr d (vpn va)) 0).mm.leafPtr d (vpn va) =
        s.mm.leafPtr d (vpn va) :=
      Mm.leafPtr_congr ((hset.dir _).trans (hdir _))
    refine ⟨l', ⟨hset.tables, FreeInv.setWord _ _ _ hfree, fun f hf hc => ?_⟩, hptr',
      hset.leaf_self,
      fun p hp hpl => (hset.leaf_other p hp hpl).trans (hleaf₂ p hpl), fun i => (hset.dir i).trans
        (hdir i), hwalk, fun f hf hfw => ?_, hlist, hpages, hnp,
      ⟨hspace.envs, hspace.kernPgdir, hspace.image, hspace.envFrame⟩⟩
    · have hf := (hwalk f).1 hf
      exact (hlist f hc).elim (h.busy f hf) (hne f hf)
    · exact (hset.keep f fun hc => hfw (hsame.walkFrame_iff.1 hc)).trans (hmem f hf)

/-! ### A 4 KB page is inserted -/

/-- **What `page_insert` leaves behind** for the page `q`, which gets the frame `f`. -/
structure PagePut (s s' : Vm) (d q f : ℕ) (perm : BitVec 32) (l l' : List ℕ) : Prop where
  inv : DirInv s'.mm d l'
  leaf_self : s'.mm.leaf d q = some (newPte f perm, false)
  leaf_other : ∀ p ≠ q, p / 1024 < pdx uTop → s'.mm.leaf d p = s.mm.leaf d p ∨
    p / 1024 = q / 1024 ∧ s.mm.leaf d p = none ∧ s'.mm.leaf d p = some (0, false)
  dir : DirGrows s.mm s'.mm d
  walk : ∀ g, s.mm.WalkFrame d g → s'.mm.WalkFrame d g
  walkNew : ∀ g, s'.mm.WalkFrame d g → s.mm.WalkFrame d g ∨ g ∈ l
  keep : ∀ g, ¬ s'.mm.WalkFrame d g → ¬ s.mm.MapsTo d q g → s'.mm.mem g = s.mm.mem g
  list : ∀ g ∈ l', g ∈ l ∨ s.mm.MapsTo d q g
  pages : ∀ g ∉ l, ¬ s.mm.MapsTo d q g → (s'.mm.pages g).pageFlags = (s.mm.pages g).pageFlags ∧
    (g ≠ f → s'.ref g = s.ref g)
  npages : s'.mm.npages = s.mm.npages
  space : SameSpaces s s'

/-- The last lines of `page_insert`. -/
theorem PagePut.of_write {s s₁ : Vm} {d q f : ℕ} {perm va w : BitVec 32} {l l' : List ℕ}
    (hinv : DirInv s₁.mm d l')
    (hlow : q / 1024 < pdx uTop) (hleaf : s₁.mm.leaf d q = some (w, false)) (hf : f ∉ l')
    (hother : ∀ p ≠ q, p / 1024 < pdx uTop → s₁.mm.leaf d p = s.mm.leaf d p ∨
      p / 1024 = q / 1024 ∧ s.mm.leaf d p = none ∧ s₁.mm.leaf d p = some (0, false))
    (hdir : DirGrows s.mm s₁.mm d) (hwalk : ∀ g, s.mm.WalkFrame d g → s₁.mm.WalkFrame d g)
    (hwalkNew : ∀ g, s₁.mm.WalkFrame d g → s.mm.WalkFrame d g ∨ g ∈ l)
    (hkeep : ∀ g, ¬ s₁.mm.WalkFrame d g → ¬ s.mm.MapsTo d q g → s₁.mm.mem g = s.mm.mem g)
    (hlist : ∀ g ∈ l', g ∈ l ∨ s.mm.MapsTo d q g)
    (hpages : ∀ g ∉ l, ¬ s.mm.MapsTo d q g → (s₁.mm.pages g).pageFlags = (s.mm.pages g).pageFlags ∧
      s₁.ref g = s.ref g)
    (hnp : s₁.mm.npages = s.mm.npages) (hspace : SameSpaces s s₁) (c : Prop) [Decidable c] :
    PagePut s ((if c then s₁.setRef f (s₁.ref f + 1) else s₁).writePte (s₁.mm.leafPtr d q) va f
      (newPte f perm)) d q f perm l l' := by
  generalize hs₂ : (if c then s₁.setRef f (s₁.ref f + 1) else s₁) = s₂
  have hs₂' : FreeInv s₂.mm l' ∧ s₂.mm.mem = s₁.mm.mem ∧
      (∀ g, (s₂.mm.pages g).pageFlags = (s₁.mm.pages g).pageFlags) ∧
      (∀ g ≠ f, s₂.ref g = s₁.ref g) ∧ s₂.mm.npages = s₁.mm.npages ∧ SameSpaces s s₂ := by
    rw [← hs₂]
    split
    · exact ⟨FreeInv.setRef_vm _ hinv.free hf, rfl, fun g => Vm.flags_setRef .., fun g hg =>
        (Vm.ppRef_setRef ..).trans (if_neg hg),
        rfl, ⟨hspace.envs, hspace.kernPgdir, hspace.image, hspace.envFrame⟩⟩
    · exact ⟨hinv.free, rfl, fun _ => rfl, fun _ _ => rfl, rfl, hspace⟩
  obtain ⟨hfree, hmem, hflags, hrefs, hnp₂, hspace₂⟩ := hs₂'
  have hset : LeafSet s₁.mm (s₂.writePte (s₁.mm.leafPtr d q) va f (newPte f perm)).mm d q
      (newPte f perm) := by
    refine leafSet_of_write hinv.toTlbTables hlow hleaf ?_ fun g hg => ?_
    · funext g
      change Function.update s₂.mm.mem _ _ g = Function.update s₁.mm.mem _ _ g
      rw [hmem]
    · have hmark := hinv.unmarked g hg
      rw [PageInfo.has, ← hflags g] at hmark
      exact hmark
  refine ⟨⟨hset.tables, FreeInv.setWord _ _ _ hfree, fun g hg => hinv.busy g ((hset.walk g).1 hg)⟩,
    hset.leaf_self, fun p hp hpl => ?_,
    hdir.trans (.of_eq hset.dir), fun g hg => (hset.walk g).2 (hwalk g hg), fun g hg => hwalkNew g
      ((hset.walk g).1 hg), fun g hg hno => ?_, hlist,
    fun g hg hno => ⟨(hflags g).trans (hpages g hg hno).1, fun hne => (hrefs g hne).trans
      (hpages g hg hno).2⟩, hnp₂.trans hnp,
    ⟨hspace₂.envs, hspace₂.kernPgdir, hspace₂.image, hspace₂.envFrame⟩⟩
  · rw [hset.leaf_other p hp hpl]
    exact hother p hp hpl
  · have hg₁ : ¬ s₁.mm.WalkFrame d g := fun hc => hg ((hset.walk g).2 hc)
    exact (hset.keep g hg₁).trans (hkeep g hg₁ hno)

/-- **`page_insert` of a 4 KB page** below `UTOP`, where there is no 4 MB page. It stops the kernel
only when a walk does, or when a page that was mapped cannot be removed. -/
theorem pageInsert_placed {s : Vm} {d f : ℕ} {l : List ℕ} {va perm : BitVec 32}
    (h : DirInv s.mm d l)
    (hlow : vpn va / 1024 < pdx uTop)
    (hsmall : isPresent (s.mm.word d (vpn va / 1024)) = true →
      isHuge (s.mm.word d (vpn va / 1024)) = false)
    (hperm : isHuge perm = false) (hf : f ∉ l)
    (hold : ∀ g, s.mm.MapsTo d (vpn va) g → s.mm.Held g ∧ ¬ s.mm.WalkFrame d g ∧ g ≠ f) :
    Ends (fun _ => isPresent perm = true ∨ (∃ g, s.mm.MapsTo d (vpn va) g) ∨ ¬ Sound s.mm d l)
      (fun r => (r = (false, s) ∧ l = [] ∧ s.mm.leaf d (vpn va) = none) ∨
        (r.1 = true ∧ ∃ l', PagePut s r.2 d (vpn va) f perm l l'))
      (pageInsert s (some d) (some f) va perm) := by
  unfold pageInsert
  refine ends_ite (fun hP => Or.inl hP) fun _ => ?_
  rw [hperm, if_neg Bool.false_ne_true, ends_bind]
  refine (pgdirWalk_opened h hlow hsmall).mono (fun _ hns => Or.inr (Or.inr hns)) ?_
  rintro ⟨pte, s₁⟩ (⟨heq, hl, hnone⟩ | ⟨l₁, hpte, hopen⟩)
  · obtain ⟨rfl, rfl⟩ := Prod.mk.inj heq
    exact Or.inl ⟨rfl, hl, hnone⟩
  obtain rfl : pte = some (s₁.mm.leafPtr d (vpn va)) := hpte
  have hopen : Opened s s₁ d (vpn va) l l₁ := hopen
  dsimp only
  -- what the walk ends at is as it was, or 0 in a new page table
  have hex : ∃ w, s₁.mm.leaf d (vpn va) = some (w, false) ∧ s₁.pte (s₁.mm.leafPtr d (vpn va)) = w ∧
      (isPresent w = true → s.mm.leaf d (vpn va) = some (w, false)) := by
    have hleaf : ∃ w, s₁.mm.leaf d (vpn va) = some (w, false) := by
      unfold Mm.leaf
      rw [if_pos hopen.table.1, if_neg (by rw [hopen.table.2]; exact Bool.false_ne_true)]
      exact ⟨_, rfl⟩
    obtain ⟨w, hw⟩ := hleaf
    refine ⟨w, hw, (Mm.leaf_eq_some hw).2.2.symm, fun hP => ?_⟩
    rcases hopen.leaf _ hlow with hsame | ⟨-, -, hzero⟩
    · rw [← hsame]
      exact hw
    · rw [hw] at hzero
      rw [(Prod.mk.inj (Option.some.inj hzero)).1] at hP
      exact absurd hP (by decide)
  obtain ⟨w, hw, hpte, hwas⟩ := hex
  have hf₁ : f ∉ l₁ := fun hc => hf (hopen.list f hc)
  rw [hpte]
  by_cases hcond : isPresent w = true ∧ pteAddr w ≠ page2pa f
  · rw [if_pos hcond, ends_bind]
    have hmaps : s.mm.MapsTo d (vpn va) (pgnum w) := ⟨w, hwas hcond.1, hcond.1, rfl⟩
    obtain ⟨hheld, haside, -⟩ := hold _ hmaps
    have hgl : pgnum w ∉ l := h.free.not_mem_of_held hheld
    have haside₁ : ¬ s₁.mm.WalkFrame d (pgnum w) := fun hc => (hopen.walkNew _ hc).elim haside hgl
    have hheld₁ : s₁.mm.Held (pgnum w) := hheld.congr hopen.npages (hopen.pages _ hgl).1
    refine (pageRemove_gone hopen.inv hlow hw rfl hheld₁ haside₁).mono
      (fun _ _ => Or.inr (Or.inl ⟨_, hmaps⟩)) ?_
    rintro s₂ ⟨l₂, hgone⟩
    refine Or.inr ⟨rfl, l₂, ?_⟩
    have hf₂ : f ∉ l₂ := fun hc => (hgone.list f hc).elim hf₁ fun heq => (hold _ hmaps).2.2 heq.symm
    rw [← hgone.ptr]
    refine PagePut.of_write hgone.inv hlow hgone.leaf_self hf₂ (fun p hp hpl => ?_)
      (hopen.dir.trans (.of_eq hgone.dir))
      (fun g hg => (hgone.walk g).2 (hopen.walk g hg))
      (fun g hg => hopen.walkNew g ((hgone.walk g).1 hg)) (fun g hg hno => ?_) (fun g hg => ?_)
        (fun g hg hno => ?_)
      (hgone.npages.trans hopen.npages) (hopen.space.trans hgone.space) _
    · rw [hgone.leaf_other p hp hpl]
      exact hopen.leaf p hpl
    · have hg₁ : ¬ s₁.mm.WalkFrame d g := fun hc => hg ((hgone.walk g).2 hc)
      exact (hgone.keep g (fun hc => hno (hc ▸ hmaps)) hg₁).trans (hopen.keep g hg₁)
    · rcases hgone.list g hg with hg | rfl
      · exact Or.inl (hopen.list g hg)
      · exact Or.inr hmaps
    · have hne : g ≠ pgnum w := fun hc => hno (hc ▸ hmaps)
      exact ⟨(hgone.pages g hne).1.trans (hopen.pages g hg).1,
        (hgone.pages g hne).2.trans (hopen.pages g hg).2⟩
  · rw [if_neg hcond]
    refine Or.inr ⟨rfl, l₁, ?_⟩
    exact PagePut.of_write hopen.inv hlow hw hf₁ (fun p _ hpl => hopen.leaf p hpl) hopen.dir
      hopen.walk hopen.walkNew
      (fun g hg _ => hopen.keep g hg) (fun g hg => Or.inl (hopen.list g hg))
        (fun g hg _ => hopen.pages g hg) hopen.npages
      hopen.space _

end Jos
