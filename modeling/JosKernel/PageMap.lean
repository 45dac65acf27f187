/-
**Mapping and unmapping pages.**

What `pgdir_walk`, `page_remove` and `page_insert` do to a set of directories with 4 KB mappings
below `UTOP`, for any sequence of calls: which entries change, what the reference counts are, and
which frames go back to the free list.

Main definitions:

* `Jos.Rewrites` — one entry gets a new value, and the entries of all other pages stay;
* `Jos.PtOp`, `Jos.ptExec`, `Jos.ptStep` — the calls;
* `Jos.PtOp.Allowed` — what a caller has to respect.

Main results:

* `Jos.pgdirWalk_ends`, `Jos.pageRemove_ends`, `Jos.pageInsert_ends` — the calls, one by one;
* `Jos.page_tables_exact` — **entries, reference counts and the free list after any sequence of
  calls**.
-/

import JosKernel.LabelledRun
import JosKernel.PageTree

set_option relaxedAutoImplicit false
set_option autoImplicit false

namespace Jos

open LinkedList Outcome LabelledRun

/-! ### Walking -/

section Walk

variable {s : Vm} {D K : Finset ℕ} {l : List ℕ} {d t : ℕ} {va : BitVec 32}

/-- The entry of the directory leads to the page table `t`. -/
theorem walkEnd_table (hmap : Maps (s.mm.word d (pdx va)) t)
    (hhuge : isHuge (s.mm.word d (pdx va)) = false) (ht : t < s.mm.npages) :
    walkEnd s ⟨d, pdx va⟩ va false = Except.ok ⟨t, ptx va⟩ := by
  have hpte : s.pte ⟨d, pdx va⟩ = s.mm.word d (pdx va) := rfl
  have hka : ¬ s.mm.npages ≤ t := by omega
  rw [walkEnd, hpte, hhuge, kaddr, pgnum_pteAddr, hmap.2, if_neg hka]
  rfl

theorem pgdirFind_table (hmap : Maps (s.mm.word d (pdx va)) t)
    (hhuge : isHuge (s.mm.word d (pdx va)) = false) (ht : t < s.mm.npages) :
    pgdirFind s (some d) va = Except.ok (some ⟨t, ptx va⟩) := by
  have hP : isPresent (s.pte ⟨d, pdx va⟩) = true := hmap.1
  unfold pgdirFind
  dsimp only
  rw [if_pos hP, walkEnd_table hmap hhuge ht]
  rfl

theorem pgdirWalk_table (hmap : Maps (s.mm.word d (pdx va)) t)
    (hhuge : isHuge (s.mm.word d (pdx va)) = false) (ht : t < s.mm.npages) :
    pgdirWalk s (some d) va .normal = Except.ok (some ⟨t, ptx va⟩, s) := by
  have hP : isPresent (s.pte ⟨d, pdx va⟩) = true := hmap.1
  have hcreate : (Create.normal == Create.huge) = false := rfl
  unfold pgdirWalk
  dsimp only
  rw [if_pos hP, hcreate, walkEnd_table hmap hhuge ht]
  rfl

/-- A frame that is in use and holds zeros becomes the page table of an entry that has none. -/
theorem addTable_inv {pg : ℕ} {w : BitVec 32} (h : PtInv s.mm D K l) (hd : d ∈ D)
    (hva : pdx va < pdx uTop)
    (habs : isPresent (s.mm.word d (pdx va)) = false) (hheld : s.mm.Held pg)
    (hplain : s.mm.Plain D K pg)
    (hno : s.mm.mappings D pg = 0) (hzero : s.mm.mem pg = fun _ => 0) (href : s.ref pg = 0)
    (hw : w = tablePde pg) {s' : Vm}
    (hs' : s' = (s.writePte ⟨d, pdx va⟩ va pg w).setRef pg
      ((s.writePte ⟨d, pdx va⟩ va pg w).ref pg + 1)) :
    PtInv s'.mm D K l ∧ s'.mm.Table D d (pdx va) pg ∧
      (∀ d' ∈ D, ∀ p < 2 ^ 20, ¬ PtInv.Window s.mm d' p → s'.mm.entry d' p = s.mm.entry d' p) ∧
      (∀ f, s.mm.Held f → s'.mm.Held f) ∧ (∀ f ≠ pg, s.mm.Plain D K f → s'.mm.Plain D K f) ∧
      (∀ f ≠ pg, (s'.mm.pages f).ppRef = (s.mm.pages f).ppRef) ∧
      (∀ f ≠ d, s'.mm.mem f = s.mm.mem f) ∧
      ∀ d' i' t, s.mm.Table D d' i' t → s'.mm.Table D d' i' t := by
  subst hs' hw
  have hpg : ∀ j, s.mm.word pg j = 0 := Mm.word_of_zero hzero
  have hword := s.word_writePte ⟨d, pdx va⟩ va (tablePde pg) pg
  have hflags := (s.writePte ⟨d, pdx va⟩ va pg (tablePde pg)).flags_setRef pg
  have hrefs := (s.writePte ⟨d, pdx va⟩ va pg (tablePde pg)).ppRef_setRef pg
  have hfree : FreeInv (s.writePte ⟨d, pdx va⟩ va pg (tablePde pg)).mm l := h.free.setWord ..
  have hfree := hfree.setRef_vm (s.ref pg + 1) (h.free.not_mem_of_held hheld)
  have htab : ∀ {d' i' t : ℕ}, _ ↔ s.mm.Table D d' i' t ∨ (d' = d ∧ i' = pdx va ∧ t = pg) :=
    PtInv.table_newTable hd hva habs hheld hword
  have hrefs' : ∀ g ≠ pg,
      (((s.writePte ⟨d, pdx va⟩ va pg (tablePde pg)).setRef pg (s.ref pg + 1)).mm.pages
      g).ppRef = (s.mm.pages g).ppRef :=
    fun g hg => (hrefs g _).trans (if_neg hg)
  refine ⟨?_, htab.2 (Or.inr ⟨rfl, rfl, rfl⟩), fun d' hd' p hp hwin => ?_,
    fun f hf => hf.congr rfl (hflags f _), ?_,
    hrefs', fun f hf => Function.update_of_ne hf .., fun d' i' t ht => htab.2 (Or.inl ht)⟩
  · refine h.newTable hd hva habs hheld hplain hno hpg hword rfl hfree
      (fun g => hflags g _) hrefs' ?_
    · rw [hrefs, if_pos rfl]
      change s.ref pg + 1 = 1
      rw [href]
      rfl
  · exact h.entry_newTable hd hva habs hheld hplain hpg hword hd' hp hwin
  · intro f hne hf
    refine ⟨hf.1, hf.2.1, fun d' i' ht => ?_⟩
    rcases htab.1 ht with ht | ⟨-, -, heq⟩
    · exact hf.2.2 d' i' ht
    · exact hne heq

/-- What page tables do not concern: the areas of the environments, and what the kernel never
changes. -/
structure SameSpaces (s s' : Vm) : Prop where
  envs : s'.envs = s.envs
  kernPgdir : s'.kernPgdir = s.kernPgdir
  image : s'.image = s.image
  envFrame : s'.envFrame = s.envFrame

theorem SameSpaces.trans {s s' s'' : Vm} (h : SameSpaces s s') (h' : SameSpaces s' s'') :
    SameSpaces s s'' :=
  ⟨h'.envs.trans h.envs, h'.kernPgdir.trans h.kernPgdir, h'.image.trans h.image,
    h'.envFrame.trans h.envFrame⟩

/-- The entries written since are as `P` says. -/
def LogGrows (P : PteWrite → Prop) (s s' : Vm) : Prop := ∀ w ∈ s'.written, w ∈ s.written ∨ P w

theorem LogGrows.trans {P : PteWrite → Prop} {s s' s'' : Vm} (h : LogGrows P s s')
    (h' : LogGrows P s' s'') :
    LogGrows P s s'' := by
  intro w hw
  rcases h' w hw with hw | hw
  · exact h w hw
  · exact Or.inr hw

theorem LogGrows.mono {P Q : PteWrite → Prop} {s s' : Vm} (h : LogGrows P s s')
    (hPQ : ∀ w, P w → Q w) :
    LogGrows Q s s' :=
  fun w hw => (h w hw).imp_right (hPQ w)

theorem LogGrows.of_eq {P : PteWrite → Prop} {s s' : Vm} (h : s'.written = s.written) :
    LogGrows P s s' :=
  fun _ hw => Or.inl (h ▸ hw)

theorem LogGrows.cons {P : PteWrite → Prop} {s s' : Vm} {w : PteWrite}
    (h : s'.written = w :: s.written) (hw : P w) : LogGrows P s s' := by
  intro w' hw'
  rw [h, List.mem_cons] at hw'
  exact hw'.elim (fun heq => Or.inr (heq ▸ hw)) Or.inl

/-- **What a walk that may add a page table leaves behind**, with the page table `t` that it
found. -/
structure Walked (s s' : Vm) (D K : Finset ℕ) (l l' : List ℕ) (d i t : ℕ) : Prop where
  inv : PtInv s'.mm D K l'
  npages : s'.mm.npages = s.mm.npages
  table : s'.mm.Table D d i t
  tables : ∀ d' i' t', s.mm.Table D d' i' t' → s'.mm.Table D d' i' t'
  entry : ∀ d' ∈ D, ∀ p < 2 ^ 20, ¬ PtInv.Window s.mm d' p → s'.mm.entry d' p = s.mm.entry d' p
  list : ∀ f ∈ l', f ∈ l
  held : ∀ f, s.mm.Held f → s'.mm.Held f
  plain : ∀ f, s.mm.Held f → s.mm.Plain D K f → s'.mm.Plain D K f
  refs : ∀ f, f ∈ D ∨ f ∈ K → s'.ref f = s.ref f
  mem : ∀ f, s.mm.Held f → s.mm.Plain D K f → s'.mm.mem f = s.mm.mem f
  found : isPresent (s.mm.word d i) = true → s' = s
  space : SameSpaces s s'
  log : LogGrows (fun w => w.pte = tablePde w.frame) s s'
  steady : Steady s.mm l → Steady s'.mm l'

/-- **`pgdir_walk(pgdir, va, CREATE_NORMAL)`** below `UTOP`: it finds the page table or adds one,
and fails only when no frame is free. -/
theorem pgdirWalk_ends (h : PtInv s.mm D K l) (hd : d ∈ D) (hva : pdx va < pdx uTop) :
    Ends (fun _ => ¬ Steady s.mm l)
      (fun r => (r = (none, s) ∧ l = []) ∨
        ∃ t l', r.1 = some ⟨t, ptx va⟩ ∧ Walked s r.2 D K l l' d (pdx va) t)
      (pgdirWalk s (some d) va .normal) := by
  by_cases hP : isPresent (s.mm.word d (pdx va)) = true
  · have ht : s.mm.Table D d (pdx va) (pgnum (s.mm.word d (pdx va))) := ⟨hd, hva, hP, rfl⟩
    have hlt := (h.table _ _ _ ht).1.1
    rw [pgdirWalk_table ht.2.2 (h.small d hd _ hva hP) hlt]
    exact Or.inr ⟨_, l, rfl, h, rfl, ht, fun _ _ _ ht => ht, fun _ _ _ _ _ => rfl, fun _ hf => hf,
      fun _ hf => hf,
      fun _ _ hf => hf, fun _ _ => rfl, fun _ _ _ => rfl, fun _ => rfl, ⟨rfl, rfl, rfl, rfl⟩,
      .of_eq rfl, fun hst => hst⟩
  · have habs : isPresent (s.mm.word d (pdx va)) = false := Bool.not_eq_true _ ▸ hP
    have hpte : ¬ isPresent (s.pte ⟨d, pdx va⟩) = true := hP
    unfold pgdirWalk
    dsimp only
    rw [if_neg hpte, ends_bind]
    refine (pageAlloc_taken h.free (by decide) (by decide)).post ?_
    rintro ⟨pg, m₁⟩ (⟨heq, hl⟩ | ⟨pp, hmem, hr, htaken, hfree, hst⟩)
    · obtain ⟨rfl, rfl⟩ := Prod.mk.injEq .. ▸ heq
      exact Or.inl ⟨rfl, hl⟩
    · obtain rfl : pg = some pp := hr
      have htaken : Taken s.mm m₁ allocZero pp := htaken
      have hfree : FreeInv m₁ (l.erase pp) := hfree
      have hst : Steady s.mm l → Steady m₁ (l.erase pp) := hst
      obtain ⟨hinv₁, hentry₁⟩ := h.take hmem htaken hfree
      have hpp := h.plain_free hmem
      have hmemD : ∀ d' ∈ D, ∀ i, m₁.word d' i = s.mm.word d' i := by
        intro d' hd' i
        refine Mm.word_of_mem (htaken.mem d' ?_) i
        rintro rfl
        exact hpp.1 hd'
      have hheld₁ : ∀ f, s.mm.Held f → m₁.Held f := by
        intro f hf
        refine hf.congr htaken.npages (htaken.flags f ?_)
        rintro rfl
        exact h.free.not_mem_of_held hf hmem
      have hno : m₁.mappings D pp = 0 := by
        rw [mappings_congr fun d' hd' p hp => hentry₁ d' hd' p (PtInv.lt_pow_of_low hp)]
        exact h.mappings_free hmem
      have href : (m₁.pages pp).ppRef = 0 := (htaken.ref pp).trans (h.free.listed pp hmem).2.2
      obtain ⟨hinv, htab, hentry, hheld, hplain, hrefs, hmem', htabs⟩ :=
        addTable_inv (s := { s with mm := m₁ })
        (w := page2pa pp ||| pteP ||| pteW ||| pteU) hinv₁ hd hva
          ((congrArg isPresent (hmemD d hd _)).trans habs)
        (htaken.held (h.free.listed pp hmem).1) ((PtInv.plain_congr hmemD).2 hpp) hno
        (htaken.zero (by decide)) href rfl rfl
      simp only [ends_bind]
      have hlt := (hinv.table _ _ _ htab).1.1
      rw [walkEnd_table htab.2.2 (hinv.small d hd _ hva htab.2.2.1) hlt]
      refine Or.inr ⟨pp, l.erase pp, rfl, hinv, htaken.npages, htab, ?_, ?_, ?_, ?_, ?_, ?_, ?_, ?_,
        ⟨rfl, rfl, rfl, rfl⟩, .cons rfl rfl, ?_⟩
      · exact fun d' i' t ht => htabs d' i' t ((PtInv.table_congr hmemD).2 ht)
      · intro d' hd' p hp hwin
        refine (hentry d' hd' p hp ?_).trans (hentry₁ d' hd' p hp)
        rwa [PtInv.Window, hmemD d' hd']
      · exact fun f hf => List.mem_of_mem_erase hf
      · exact fun f hf => hheld f (hheld₁ f hf)
      · intro f hf hp
        refine hplain f ?_ ((PtInv.plain_congr hmemD).2 hp)
        rintro rfl
        exact h.free.not_mem_of_held hf hmem
      · intro f hf
        refine (hrefs f ?_).trans (htaken.ref f)
        rintro rfl
        exact hf.elim hpp.1 hpp.2.1
      · intro f hf hp
        have hfd : f ≠ d := by
          rintro rfl
          exact hp.1 hd
        have hfp : f ≠ pp := by
          rintro rfl
          exact h.free.not_mem_of_held hf hmem
        exact (hmem' f hfd).trans (htaken.mem f hfp)
      · intro hP'
        exact absurd hP' hP
      · intro hs
        exact Steady.setRef _ (Steady.setWord _ _ _ (hst hs))

end Walk

/-! ### One entry -/

/-- **The entry of the page `p` of the directory `d` becomes `w`**, and those of all other pages
stay. -/
def Rewrites (m m' : Mm) (D : Finset ℕ) (d p : ℕ) (w : BitVec 32) : Prop :=
  ∀ d' ∈ D, ∀ q < 2 ^ 20, m'.entry d' q = if d' = d ∧ q = p then w else m.entry d' q

theorem vpn_eq (va : BitVec 32) : pdx va * 1024 + ptx va = vpn va := by
  rw [pdx_eq, ptx_eq]
  omega

theorem Mm.Table.entry {m : Mm} {D K : Finset ℕ} {l : List ℕ} {d t : ℕ} {va : BitVec 32}
    (ht : m.Table D d (pdx va) t) (h : PtInv m D K l) : m.entry d (vpn va) = m.word t (ptx va) := by
  rw [← vpn_eq]
  exact h.entry_table ht (ptx_lt va)

theorem low_vpn {va : BitVec 32} (hva : va < uTop) : vpn va / 1024 < pdx uTop := by
  rw [← pdx_eq]
  exact pdx_lt_of_lt hva

/-- A 16-bit counter that is above 0 and not yet full. -/
theorem ofNat_ne_zero {n : ℕ} (h₀ : 0 < n) (h₁ : n < 65536) : BitVec.ofNat 16 n ≠ 0 := by
  intro h
  have hnat : n % 2 ^ 16 = 0 := congrArg BitVec.toNat h
  omega

theorem ofNat_pred_eq_zero_iff {n : ℕ} (h₀ : 0 < n) (h₁ : n < 65536) :
    BitVec.ofNat 16 n - 1 = 0 ↔ n = 1 := by
  constructor
  · intro h
    have h : BitVec.ofNat 16 n = 1 := by bv_omega
    have hnat : n % 2 ^ 16 = 1 := congrArg BitVec.toNat h
    omega
  · rintro rfl
    rfl

section Remove

variable {s : Vm} {D K : Finset ℕ} {l : List ℕ} {d t : ℕ} {va : BitVec 32}

/-- **What `page_remove` leaves behind.** -/
structure Removed (s s' : Vm) (D K : Finset ℕ) (l l' : List ℕ) (d : ℕ) (va : BitVec 32) : Prop where
  inv : PtInv s'.mm D K l'
  npages : s'.mm.npages = s.mm.npages
  dir : ∀ d ∈ D, ∀ i, s'.mm.word d i = s.mm.word d i
  rewrites : Rewrites s.mm s'.mm D d (vpn va) 0
  list : ∀ g, g ∈ l' ↔ g ∈ l ∨ (0 < s.mm.mappings D g ∧ s'.mm.mappings D g = 0)
  held : ∀ f, s.mm.Held f → f ≠ pgnum (s.mm.entry d (vpn va)) → s'.mm.Held f
  refs : ∀ f, f ∈ D ∨ f ∈ K → s'.ref f = s.ref f
  mem : ∀ f, s.mm.Plain D K f → s'.mm.Held f → s'.mm.mem f = s.mm.mem f
  space : SameSpaces s s'
  log : s'.written = s.written
  steady : Steady s.mm l → Steady s'.mm l'

/-- An entry that mapped `f` is cleared: one mapping of `f` fewer. -/
theorem mappings_cleared (h : PtInv s.mm D K l) (ht : s.mm.Table D d (pdx va) t) {f : ℕ}
    (hmap : Maps (s.mm.word t (ptx va)) f) {m' : Mm} (hrew : Rewrites s.mm m' D d (vpn va) 0)
    (g : ℕ) : m'.mappings D g + (if g = f then 1 else 0) = s.mm.mappings D g := by
  have hlow : vpn va / 1024 < pdx uTop := by
    rw [← pdx_eq]
    exact ht.2.1
  have hup := mappings_update ht.1 hlow
    (fun d' hd' q hq => hrew d' hd' q (PtInv.lt_pow_of_low hq)) g
  rw [if_neg (not_maps_zero g), ht.entry h] at hup
  have hiff : Maps (s.mm.word t (ptx va)) g ↔ g = f :=
    ⟨fun hg => hg.2.symm.trans hmap.2, fun hg => hg ▸ hmap⟩
  simpa only [hiff, Nat.add_zero] using hup

/-- The free list when one mapping of `f` has gone: `f` is on it if that was the last one. -/
theorem mem_list_cleared {m m' : Mm} {f : ℕ} {l' : List ℕ} (hfl : f ∉ l)
    (hpos : 0 < m.mappings D f)
    (hcount : ∀ g, m'.mappings D g + (if g = f then 1 else 0) = m.mappings D g)
    (hlast : (m.mappings D f = 1 ∧ l' = f :: l) ∨ (m.mappings D f ≠ 1 ∧ l' = l)) (g : ℕ) :
    g ∈ l' ↔ g ∈ l ∨ (0 < m.mappings D g ∧ m'.mappings D g = 0) := by
  have hg := hcount g
  by_cases hgf : g = f
  · subst hgf
    rw [if_pos rfl] at hg
    rcases hlast with ⟨hone, rfl⟩ | ⟨hmore, rfl⟩
    · simp only [List.mem_cons, true_or, true_iff]
      exact Or.inr ⟨hpos, by omega⟩
    · simp only [hfl, false_or, false_iff]
      omega
  · rw [if_neg hgf] at hg
    have hsame : ¬ (0 < m.mappings D g ∧ m'.mappings D g = 0) := by omega
    rw [or_iff_left hsame]
    rcases hlast with ⟨-, rfl⟩ | ⟨-, rfl⟩
    · rw [List.mem_cons, or_iff_right hgf]
    · exact Iff.rfl

/-- The end of `page_remove`, once the count of the page has gone down and the page has been
released if that was the last reference. -/
theorem removed_of_count (h : PtInv s.mm D K l) (ht : s.mm.Table D d (pdx va) t) {f : ℕ}
    (hmap : Maps (s.mm.word t (ptx va)) f) {s₂ : Vm} {l' : List ℕ}
    (hnp : s₂.mm.npages = s.mm.npages)
    (hmem : ∀ g ≠ f, s₂.mm.mem g = s.mm.mem g)
    (hflags : ∀ g ≠ f, (s₂.mm.pages g).pageFlags = (s.mm.pages g).pageFlags)
    (hrefs : ∀ g ≠ f, (s₂.mm.pages g).ppRef = (s.mm.pages g).ppRef)
    (href : (s₂.mm.pages f).ppRef = (s.mm.pages f).ppRef - 1) (hfree : FreeInv s₂.mm l')
    (hlast : (s.mm.mappings D f = 1 ∧ l' = f :: l) ∨ (s.mm.mappings D f ≠ 1 ∧ l' = l ∧
      (s₂.mm.pages f).pageFlags = (s.mm.pages f).pageFlags ∧ s₂.mm.mem f = s.mm.mem f))
    (hspace : SameSpaces s s₂) (hlog : s₂.written = s.written)
    (hst : Steady s.mm l → Steady s₂.mm l') :
    Removed s (s₂.setPte ⟨t, ptx va⟩ 0) D K l l' d va := by
  have hentry := ht.entry h
  have hpos : 0 < s.mm.mappings D f := by
    refine mappings_pos ht.1 ?_ (hentry ▸ hmap)
    rw [← pdx_eq]
    exact ht.2.1
  obtain ⟨hheld, hplain⟩ := h.held_of_mapped hpos
  have hword : ∀ g, PtInv.Reads s.mm D K g → ∀ k, (s₂.setPte ⟨t, ptx va⟩ 0).mm.word g k =
      if g = t ∧ k = ptx va then 0 else s.mm.word g k := by
    intro g hg k
    have hne : g ≠ f := by
      rintro rfl
      exact PtInv.not_plain_of_reads hg hplain
    rw [Vm.word_setPte, Mm.word_of_mem (hmem g hne)]
  have hrew : Rewrites s.mm (s₂.setPte ⟨t, ptx va⟩ 0).mm D d (vpn va) 0 := by
    intro d' hd' q hq
    rw [← vpn_eq]
    exact h.entry_write ht (ptx_lt va) hword hd' hq
  have hcount := mappings_cleared h ht hmap hrew
  have hf := hcount f
  rw [if_pos rfl] at hf
  refine ⟨?_, hnp, ?_, hrew, ?_, ?_, ?_, ?_, hspace.trans ⟨rfl, rfl, rfl, rfl⟩, hlog, fun hs =>
    Steady.setWord _ _ _ (hst hs)⟩
  · refine h.edit ht (ptx_lt va) hword hnp (hfree.setWord ..) ?_ (Or.inl rfl) ?_ ?_ ?_
    · intro g hg
      rcases hlast with ⟨-, rfl⟩ | ⟨-, rfl, -, -⟩
      · exact (List.mem_cons.1 hg).elim (fun heq => Or.inr (heq ▸ hplain)) Or.inl
      · exact Or.inl hg
    · intro g
      by_cases hg : g = f
      · subst hg
        rcases hlast with ⟨hone, -⟩ | ⟨-, -, hfl, -⟩
        · exact Or.inr ⟨hplain, by omega⟩
        · exact Or.inl hfl
      · exact Or.inl (hflags g hg)
    · intro d' i' g hg
      refine hrefs g ?_
      rintro rfl
      exact hplain.2.2 d' i' hg
    · intro g _
      rw [if_neg (not_maps_zero g)]
      by_cases hg : g = f
      · subst hg
        rw [if_pos hmap]
        change (s₂.mm.pages g).ppRef + 1 = _
        rw [href, BitVec.sub_add_cancel]
        exact (BitVec.add_zero _).symm
      · rw [if_neg fun hm => hg (hm.2.symm.trans hmap.2)]
        exact congrArg (· + 0#16) (hrefs g hg)
  · intro d' hd' i
    rw [hword d' (Or.inl hd'), if_neg]
    rintro ⟨rfl, -⟩
    exact (h.table _ _ _ ht).2.1 hd'
  · refine mem_list_cleared (h.free.not_mem_of_held hheld) hpos hcount ?_
    exact hlast.imp_right fun hc => ⟨hc.1, hc.2.1⟩
  · intro g hg hne
    rw [hentry, hmap.2] at hne
    exact hg.congr hnp (hflags g hne)
  · intro g hg
    refine hrefs g ?_
    rintro rfl
    exact hg.elim hplain.1 hplain.2.1
  · intro g hp hg
    have hgt : g ≠ t := by
      rintro rfl
      exact hp.2.2 _ _ ht
    refine (Function.update_of_ne hgt ..).trans ?_
    by_cases hgf : g = f
    · subst hgf
      rcases hlast with ⟨-, rfl⟩ | ⟨-, -, -, hsame⟩
      · exact absurd (List.mem_cons_self ..) (hfree.not_mem_of_held (hg.congr rfl rfl))
      · exact hsame
    · exact hmem g hgf

theorem pageLookup_table (hmap : Maps (s.mm.word d (pdx va)) t)
    (hhuge : isHuge (s.mm.word d (pdx va)) = false) (ht : t < s.mm.npages) {f : ℕ}
    (hf : pgnum (s.mm.word t (ptx va)) = f) (hlt : f < s.mm.npages) :
    pageLookup s (some d) va = Except.ok (some f) := by
  have hpte : s.pte ⟨t, ptx va⟩ = s.mm.word t (ptx va) := rfl
  have hpa : pa2page s.mm.npages (pteAddr (s.pte ⟨t, ptx va⟩)) = Except.ok f := by
    rw [pa2page, hpte, pgnum_pteAddr, hf, if_neg (by omega)]
    rfl
  unfold pageLookup
  rw [if_neg (by simp), pgdirFind_table hmap hhuge ht]
  change (pa2page s.mm.npages (pteAddr (s.pte ⟨t, ptx va⟩)) >>= fun pp => pure (some pp)) = _
  rw [hpa]
  rfl

/-- **`page_remove`** of a page that is mapped. -/
theorem pageRemove_ends (h : PtInv s.mm D K l) (ht : s.mm.Table D d (pdx va) t)
    (hP : isPresent (s.mm.word t (ptx va)) = true)
    (hbound : s.mm.mappings D (pgnum (s.mm.word t (ptx va))) < 65536) :
    Ends (fun _ => ¬ Steady s.mm l) (fun s' => ∃ l', Removed s s' D K l l' d va)
      (pageRemove s (some d) va) := by
  obtain ⟨f, hf⟩ : ∃ f, pgnum (s.mm.word t (ptx va)) = f := ⟨_, rfl⟩
  have hmap : Maps (s.mm.word t (ptx va)) f := ⟨hP, hf⟩
  have hsmall := h.small d ht.1 _ ht.2.1 ht.2.2.1
  have htlt := (h.table _ _ _ ht).1.1
  have hpos : 0 < s.mm.mappings D f := by
    refine mappings_pos ht.1 ?_ (ht.entry h ▸ hmap)
    rw [← pdx_eq]
    exact ht.2.1
  rw [hf] at hbound
  obtain ⟨hheld, hplain⟩ := h.held_of_mapped hpos
  have href : s.ref f = BitVec.ofNat 16 (s.mm.mappings D f) := h.ref f hheld.1 hplain
  have hfl := h.free.not_mem_of_held hheld
  -- the second walk finds the same entry, since neither the directory nor the table is the page
  have hfind : ∀ m : Mm, m.npages = s.mm.npages → (∀ g ≠ f, m.mem g = s.mm.mem g) →
      pgdirFind { s with mm := m } (some d) va = Except.ok (some ⟨t, ptx va⟩) := by
    intro m hnp hmem
    have hd : m.word d (pdx va) = s.mm.word d (pdx va) := by
      refine Mm.word_of_mem (hmem d ?_) _
      rintro rfl
      exact hplain.1 ht.1
    refine pgdirFind_table (s := { s with mm := m }) ?_ ?_ (hnp ▸ htlt)
    · exact hd ▸ ht.2.2
    · exact hd ▸ hsmall
  unfold pageRemove
  rw [if_neg (by simp), pageLookup_table ht.2.2 hsmall htlt hf hheld.1]
  simp only [pure_bind, ends_bind, ends_ok]
  rw [if_neg (by rw [href]; exact ofNat_ne_zero hpos hbound)]
  have hset : (s.setRef f (s.ref f - 1)).ref f = s.ref f - 1 := by
    rw [Vm.ref, Vm.ppRef_setRef, if_pos rfl]
  have hfree₁ : FreeInv (s.setRef f (s.ref f - 1)).mm l := h.free.setRef_vm _ hfl
  rw [hset, href]
  refine ends_ite (fun hz => ?_) (fun hz => ?_)
  · rw [ends_bind]
    have hone := (ofNat_pred_eq_zero_iff hpos hbound).1 hz
    have hheld₁ : (s.setRef f (s.ref f - 1)).mm.Held f := hheld.congr rfl (Vm.flags_setRef ..)
    rw [← href] at hz ⊢
    refine (releasePage_given hfree₁ hheld₁ (hset.trans hz)).mono ?_ ?_
    · intro _ hns hs
      exact hns (hs.setRef _)
    · rintro s₂ ⟨m, rfl, hg, hfree, hst⟩
      have hfind₂ : pgdirFind { s.setRef f (s.ref f - 1) with mm := m } (some d) va =
          Except.ok (some ⟨t, ptx va⟩) := hfind m hg.npages fun g hne => hg.mem g hne
      rw [hfind₂]
      refine ⟨f :: l, removed_of_count h ht hmap hg.npages hg.mem ?_ ?_ ?_ hfree
        (Or.inl ⟨hone, rfl⟩)
        ⟨rfl, rfl, rfl, rfl⟩ rfl ?_⟩
      · intro g hne
        rw [hg.flags g hne, Vm.flags_setRef]
      · intro g hne
        rw [hg.ref g hne, Vm.ppRef_setRef, if_neg hne]
      · rw [hg.clear]
        exact hz.symm
      · exact fun hs => hst (hs.setRef _)
  · have hmore : s.mm.mappings D f ≠ 1 :=
      fun hone => hz ((ofNat_pred_eq_zero_iff hpos hbound).2 hone)
    rw [← href]
    have hfind₁ : pgdirFind (s.setRef f (s.ref f - 1)) (some d) va = Except.ok (some ⟨t, ptx va⟩) :=
      hfind (s.setRef f (s.ref f - 1)).mm rfl fun _ _ => rfl
    rw [hfind₁]
    refine ⟨l, removed_of_count h ht hmap rfl (fun _ _ => rfl) ?_ ?_ ?_ hfree₁
      (Or.inr ⟨hmore, rfl, ?_, rfl⟩) ⟨rfl, rfl, rfl, rfl⟩ rfl ?_⟩
    · exact fun g _ => Vm.flags_setRef ..
    · intro g hne
      rw [Vm.ppRef_setRef, if_neg hne]
    · rw [Vm.ppRef_setRef, if_pos rfl]
      rfl
    · exact Vm.flags_setRef ..
    · exact fun hs => hs.setRef _

end Remove

/-! ### Insertion -/

theorem Vm.setRef_self (s : Vm) (pp : ℕ) : s.setRef pp (s.ref pp) = s := by
  have hpages : Function.update s.mm.pages pp { s.mm.pages pp with ppRef := s.ref pp } =
      s.mm.pages :=
    Function.update_eq_self ..
  rw [Vm.setRef, Mm.modPage, hpages]

section Insert

variable {s : Vm} {D K : Finset ℕ} {l : List ℕ} {d t pp : ℕ} {va perm : BitVec 32}

/-- The value that `page_insert` writes. -/
def insertPte (pp : ℕ) (perm : BitVec 32) : BitVec 32 := page2pa pp ||| perm ||| pteP

theorem insertPte_maps (hpp : pp < 2 ^ 20) (hperm : perm.toNat < 4096) :
    Maps (insertPte pp perm) pp := by
  have hor : insertPte pp perm = page2pa pp ||| (perm ||| pteP) := BitVec.or_assoc ..
  have hlt : (perm ||| pteP).toNat < 4096 := by
    rw [BitVec.toNat_or]
    exact Nat.or_lt_two_pow (n := 12) hperm (by decide)
  rw [hor]
  refine ⟨?_, pgnum_page2pa_or hpp hlt⟩
  rw [isPresent, page2pa_or_and _ _ (by decide), bne_iff_ne]
  intro hz
  have hbit := congrArg (fun w => BitVec.getLsbD w 0) hz
  simp [pteP] at hbit

/-- The entry of a page gets a value that maps `pp`, and the count of `pp` becomes `n`. -/
theorem setEntry_inv (h : PtInv s.mm D K l) (ht : s.mm.Table D d (pdx va) t) (hheld : s.mm.Held pp)
    (hplain : s.mm.Plain D K pp) {w : BitVec 32} (hw : Maps w pp) {n : BitVec 16}
    (hold : ∀ g ≠ pp, ¬ Maps (s.mm.word t (ptx va)) g)
    (hn : n + (if Maps (s.mm.word t (ptx va)) pp then 1 else 0) = s.ref pp + 1) :
    PtInv ((s.setRef pp n).writePte ⟨t, ptx va⟩ va pp w).mm D K l ∧
      Rewrites s.mm ((s.setRef pp n).writePte ⟨t, ptx va⟩ va pp w).mm D d (vpn va) w := by
  have hword : ∀ g, PtInv.Reads s.mm D K g → ∀ k,
      ((s.setRef pp n).writePte ⟨t, ptx va⟩ va pp w).mm.word g k =
        if g = t ∧ k = ptx va then w else s.mm.word g k :=
    fun g _ k => Vm.word_writePte ..
  constructor
  · refine h.edit ht (ptx_lt va) hword rfl ?_ (fun _ hg => Or.inl hg)
      (Or.inr ⟨hw.1, hw.2 ▸ hheld, hw.2 ▸ hplain⟩) ?_ ?_ ?_
    · exact FreeInv.setWord _ _ _ (h.free.setRef_vm n (h.free.not_mem_of_held hheld))
    · exact fun g => Or.inl (Vm.flags_setRef ..)
    · intro d' i' g hg
      refine (Vm.ppRef_setRef s pp g n).trans (if_neg ?_)
      rintro rfl
      exact hplain.2.2 d' i' hg
    · intro g _
      change ((s.setRef pp n).mm.pages g).ppRef + _ = _
      rw [Vm.ppRef_setRef]
      by_cases hg : g = pp
      · subst hg
        rw [if_pos rfl, if_pos hw]
        exact hn
      · have hgw : ¬ Maps w g := fun hm => hg (hm.2.symm.trans hw.2)
        rw [if_neg hg, if_neg (hold g hg), if_neg hgw]
  · intro d' hd' q hq
    rw [← vpn_eq]
    exact h.entry_write ht (ptx_lt va) hword hd' hq

/-- What `setEntry_inv` leaves alone. -/
theorem setEntry_keeps (ht : s.mm.Table D d (pdx va) t) (hplain : s.mm.Plain D K pp) (n : BitVec 16)
    (w : BitVec 32) :
    (∀ f, f ∈ D ∨ f ∈ K → ((s.setRef pp n).writePte ⟨t, ptx va⟩ va pp w).ref f = s.ref f) ∧
      ∀ f, s.mm.Plain D K f → ((s.setRef pp n).writePte ⟨t, ptx va⟩ va pp w).mm.mem f =
        s.mm.mem f := by
  constructor
  · intro f hf
    refine (Vm.ppRef_setRef s pp f n).trans (if_neg ?_)
    rintro rfl
    exact hf.elim hplain.1 hplain.2.1
  · intro f hf
    refine Function.update_of_ne ?_ ..
    rintro rfl
    exact hf.2.2 _ _ ht

/-- The rest of `page_insert`, from the entry that the walk found. -/
def insertAt (s : Vm) (dir : ℕ) (pte : PtePtr) (pp : ℕ) (va perm : BitVec 32) :
    Except Crash (Bool × Vm) := do
  let reIns := pteAddr (s.pte pte) ≠ page2pa pp
  let s ← if isPresent (s.pte pte) ∧ reIns then pageRemove s (some dir) va else pure s
  let s := if reIns then s.setRef pp (s.ref pp + 1) else s
  pure (true, s.writePte pte va pp (page2pa pp ||| perm ||| pteP))

/-- What the rest of `page_insert` leaves behind. -/
structure InsertedAt (s s' : Vm) (D K : Finset ℕ) (l l' : List ℕ) (d pp : ℕ) (va perm : BitVec 32) :
    Prop where
  inv : PtInv s'.mm D K l'
  npages : s'.mm.npages = s.mm.npages
  rewrites : Rewrites s.mm s'.mm D d (vpn va) (insertPte pp perm)
  again : Maps (s.mm.entry d (vpn va)) pp →
    ∃ p, s.pte p = s.mm.entry d (vpn va) ∧ s' = s.writePte p va pp (insertPte pp perm)
  list : ∀ g, g ∈ l' ↔ g ∈ l ∨ (0 < s.mm.mappings D g ∧ s'.mm.mappings D g = 0)
  refs : ∀ f, f ∈ D ∨ f ∈ K → s'.ref f = s.ref f
  mem : ∀ f, s.mm.Plain D K f → s'.mm.Held f → s'.mm.mem f = s.mm.mem f
  space : SameSpaces s s'
  log : LogGrows (fun w => w.frame = pp ∧ w.pte = insertPte w.frame perm) s s'
  steady : Steady s.mm l → Steady s'.mm l'

/-- How the number of mappings changes when an entry is written. -/
theorem Rewrites.mappings {m m' : Mm} {w : BitVec 32} (h : Rewrites m m' D d (vpn va) w)
    (hd : d ∈ D) (hva : va < uTop) (f : ℕ) :
    m'.mappings D f + (if Maps (m.entry d (vpn va)) f then 1 else 0) =
      m.mappings D f + (if Maps w f then 1 else 0) :=
  mappings_update hd (low_vpn hva) (fun d' hd' q hq => h d' hd' q (PtInv.lt_pow_of_low hq)) f

/-- The page is already mapped there, and its entry gets the new flags. -/
theorem insertedAt_same (h : PtInv s.mm D K l) (ht : s.mm.Table D d (pdx va) t) (hva : va < uTop)
    (hheld : s.mm.Held pp) (hplain : s.mm.Plain D K pp)
    (hmap : Maps (s.mm.word t (ptx va)) pp) (hw : Maps (insertPte pp perm) pp) :
    InsertedAt s (s.writePte ⟨t, ptx va⟩ va pp (insertPte pp perm)) D K l l d pp va perm := by
  have hentry := ht.entry h
  obtain ⟨hinv, hrew⟩ := setEntry_inv h ht hheld hplain hw
    (n := s.ref pp) (fun g hg hm => hg (hm.2.symm.trans hmap.2)) (by rw [if_pos hmap])
  obtain ⟨hrefs, hmem⟩ := setEntry_keeps ht hplain (s.ref pp) (insertPte pp perm)
  rw [Vm.setRef_self] at hinv hrew hrefs hmem
  refine ⟨hinv, rfl, hrew, fun _ => ⟨⟨t, ptx va⟩, hentry.symm, rfl⟩, fun g => ?_, hrefs,
    fun f hf _ => hmem f hf, ⟨rfl, rfl, rfl, rfl⟩, .cons rfl ⟨rfl, rfl⟩, fun hs => hs.setWord _ _ _⟩
  have hcount := hrew.mappings ht.1 hva g
  have hiff : Maps (s.mm.entry d (vpn va)) g ↔ Maps (insertPte pp perm) g := by
    rw [hentry]
    exact ⟨fun hm => hm.2.symm.trans hmap.2 ▸ hw, fun hm => hm.2.symm.trans hw.2 ▸ hmap⟩
  simp only [hiff] at hcount
  have hkept := Nat.add_right_cancel hcount
  refine (or_iff_left ?_).symm
  rintro ⟨hpos, hz⟩
  exact absurd (hkept.symm.trans hz) (Nat.ne_of_gt hpos)

/-- Nothing is mapped there, and the page is mapped once more. -/
theorem insertedAt_empty (h : PtInv s.mm D K l) (ht : s.mm.Table D d (pdx va) t) (hva : va < uTop)
    (hheld : s.mm.Held pp) (hplain : s.mm.Plain D K pp) (hempty : s.mm.word t (ptx va) = 0)
    (hw : Maps (insertPte pp perm) pp) :
    InsertedAt s ((s.setRef pp (s.ref pp + 1)).writePte ⟨t, ptx va⟩ va pp (insertPte pp perm)) D K
      l l d pp va perm := by
  have hentry := ht.entry h
  have hnot : ¬ Maps (s.mm.entry d (vpn va)) pp := by
    rw [hentry, hempty]
    exact not_maps_zero pp
  obtain ⟨hinv, hrew⟩ := setEntry_inv h ht hheld hplain hw
    (n := s.ref pp + 1) (fun g _ => hempty.symm ▸ not_maps_zero g)
    (by rw [hempty, if_neg (not_maps_zero pp)]; exact BitVec.add_zero _)
  obtain ⟨hrefs, hmem⟩ := setEntry_keeps ht hplain (s.ref pp + 1) (insertPte pp perm)
  refine ⟨hinv, rfl, hrew, fun hm => absurd hm hnot, fun g => ?_, hrefs, fun f hf _ => hmem f hf,
    ⟨rfl, rfl, rfl, rfl⟩, .cons rfl ⟨rfl, rfl⟩, fun hs => Steady.setWord _ _ _ (hs.setRef _)⟩
  have hcount := hrew.mappings ht.1 hva g
  rw [hentry, hempty, if_neg (not_maps_zero g)] at hcount
  refine (or_iff_left ?_).symm
  rintro ⟨hpos, hz⟩
  exact absurd (hcount.symm.trans hz) (by omega)

/-- Another page was mapped there and has gone first. -/
theorem InsertedAt.of_removed {s₁ s₂ : Vm} {l₁ : List ℕ} (hrm : Removed s s₁ D K l l₁ d va)
    (hin : InsertedAt s₁ s₂ D K l₁ l₁ d pp va perm) (hd : d ∈ D) (hva : va < uTop)
    (hempty : s₁.mm.entry d (vpn va) = 0) (hne : ¬ Maps (s.mm.entry d (vpn va)) pp)
    (hw : Maps (insertPte pp perm) pp) (hheld : ∀ f, s₂.mm.Held f → s₁.mm.Held f) :
    InsertedAt s s₂ D K l l₁ d pp va perm := by
  refine ⟨hin.inv, hin.npages.trans hrm.npages, ?_, fun hm => absurd hm hne, fun g => ?_,
    fun f hf => (hin.refs f hf).trans (hrm.refs f hf), fun f hf hh => ?_,
    hrm.space.trans hin.space, (LogGrows.of_eq hrm.log).trans hin.log,
    fun hs => hin.steady (hrm.steady hs)⟩
  · intro d' hd' q hq
    refine (hin.rewrites d' hd' q hq).trans ?_
    rw [hrm.rewrites d' hd' q hq]
    split
    · rfl
    · rfl
  · rw [hrm.list g]
    have hcount₁ := hrm.rewrites.mappings hd hva g
    have hcount₂ := hin.rewrites.mappings hd hva g
    rw [hempty, if_neg (not_maps_zero g)] at hcount₂
    rw [if_neg (not_maps_zero g)] at hcount₁
    by_cases hg : g = pp
    · subst hg
      rw [if_neg hne] at hcount₁
      rw [if_pos hw] at hcount₂
      have h₁ : ¬ (0 < s.mm.mappings D g ∧ s₁.mm.mappings D g = 0) := by omega
      rw [or_iff_left h₁, or_iff_left]
      rintro ⟨-, hz⟩
      exact absurd (hcount₂.symm.trans hz) (by simp)
    · have hgw : ¬ Maps (insertPte pp perm) g := fun hm => hg (hm.2.symm.trans hw.2)
      rw [if_neg hgw] at hcount₂
      rw [← Nat.add_right_cancel hcount₂]
  · exact (hin.mem f ((PtInv.plain_congr hrm.dir).2 hf) hh).trans (hrm.mem f hf (hheld f hh))

theorem insertAt_ends (h : PtInv s.mm D K l) (ht : s.mm.Table D d (pdx va) t) (hva : va < uTop)
    (hheld : s.mm.Held pp) (hplain : s.mm.Plain D K pp) (hzero : pp ≠ 0) (hperm : perm.toNat < 4096)
    (hbound : ∀ f, s.mm.mappings D f < 65536) :
    Ends (fun _ => ¬ Steady s.mm l)
      (fun r => r.1 = true ∧ ∃ l', InsertedAt s r.2 D K l l' d pp va perm)
      (insertAt s d ⟨t, ptx va⟩ pp va perm) := by
  have hw : Maps (insertPte pp perm) pp := insertPte_maps hheld.lt_pow hperm
  have hpte : s.pte ⟨t, ptx va⟩ = s.mm.word t (ptx va) := rfl
  have hentry := ht.entry h
  have hre : pteAddr (s.pte ⟨t, ptx va⟩) ≠ page2pa pp ↔ pgnum (s.mm.word t (ptx va)) ≠ pp := by
    rw [hpte, ne_eq, pteAddr_eq_page2pa_iff hheld.lt_pow]
  unfold insertAt
  dsimp only
  by_cases hre' : pgnum (s.mm.word t (ptx va)) = pp
  · have hsame : ¬ pteAddr (s.pte ⟨t, ptx va⟩) ≠ page2pa pp := fun hc => hre.1 hc hre'
    have hP : isPresent (s.mm.word t (ptx va)) = true := by
      rcases h.pte _ _ _ ht (ptx va) (ptx_lt va) with hz | ⟨hP, -⟩
      · rw [hz] at hre'
        exact absurd hre'.symm hzero
      · exact hP
    rw [if_neg fun hc => hsame hc.2]
    simp only [pure_bind, ends_pure, if_neg hsame]
    exact ⟨trivial, l, insertedAt_same h ht hva hheld hplain ⟨hP, hre'⟩ hw⟩
  · have hdiff : pteAddr (s.pte ⟨t, ptx va⟩) ≠ page2pa pp := hre.2 hre'
    have hnot : ¬ Maps (s.mm.entry d (vpn va)) pp := fun hm => hre' (hentry ▸ hm.2)
    by_cases hP : isPresent (s.mm.word t (ptx va)) = true
    · rw [if_pos ⟨hP, hdiff⟩]
      simp only [ends_bind, if_pos hdiff]
      refine (pageRemove_ends h ht hP (hbound _)).post ?_
      rintro s₂ ⟨l', hrm⟩
      have ht₂ : s₂.mm.Table D d (pdx va) t := (PtInv.table_congr hrm.dir).2 ht
      have hempty : s₂.mm.entry d (vpn va) = 0 := by
        rw [hrm.rewrites d ht.1 _ (vpn_lt va), if_pos ⟨rfl, rfl⟩]
      have hheld₂ : s₂.mm.Held pp := by
        refine hrm.held pp hheld ?_
        rw [hentry]
        exact fun hc => hre' hc.symm
      have hin := insertedAt_empty hrm.inv ht₂ hva hheld₂ ((PtInv.plain_congr hrm.dir).2 hplain)
        ((ht₂.entry hrm.inv).symm.trans hempty) hw
      exact ⟨rfl, l', .of_removed hrm hin ht.1 hva hempty hnot hw fun f hh =>
        hh.congr rfl (Vm.flags_setRef ..).symm⟩
    · have hempty : s.mm.word t (ptx va) = 0 :=
        (h.pte _ _ _ ht (ptx va) (ptx_lt va)).resolve_right fun hc => hP hc.1
      rw [if_neg fun hc => hP hc.1]
      simp only [pure_bind, ends_pure, if_pos hdiff]
      exact ⟨trivial, l, insertedAt_empty h ht hva hheld hplain hempty hw⟩

/-- **What `page_insert` leaves behind when it returns 0.** -/
structure Inserted (s s' : Vm) (D K : Finset ℕ) (l l' : List ℕ) (d pp : ℕ) (va perm : BitVec 32) :
    Prop where
  inv : PtInv s'.mm D K l'
  npages : s'.mm.npages = s.mm.npages
  entry : s'.mm.entry d (vpn va) = insertPte pp perm
  others : ∀ d' ∈ D, ∀ q < 2 ^ 20, ¬ (d' = d ∧ q = vpn va) → ¬ PtInv.Window s.mm d' q →
    s'.mm.entry d' q = s.mm.entry d' q
  again : Maps (s.mm.entry d (vpn va)) pp →
    ∃ p, s.pte p = s.mm.entry d (vpn va) ∧ s' = s.writePte p va pp (insertPte pp perm)
  list : ∀ g, (g ∉ l ∧ g ∈ l') ↔ (0 < s.mm.mappings D g ∧ s'.mm.mappings D g = 0)
  refs : ∀ f, f ∈ D ∨ f ∈ K → s'.ref f = s.ref f
  mem : ∀ f, s.mm.Held f → s.mm.Plain D K f → s'.mm.Held f → s'.mm.mem f = s.mm.mem f
  space : SameSpaces s s'
  log : LogGrows (fun w => w.pte = tablePde w.frame ∨
    (w.frame = pp ∧ w.pte = insertPte w.frame perm)) s s'
  steady : Steady s.mm l → Steady s'.mm l'

/-- **`page_insert`** of a single frame in use at a page below `UTOP`: it maps the frame, or finds
no frame for a page table and does nothing. -/
theorem pageInsert_ends (h : PtInv s.mm D K l) (hd : d ∈ D) (hva : va < uTop) (hheld : s.mm.Held pp)
    (hplain : s.mm.Plain D K pp) (hzero : pp ≠ 0) (hperm : perm.toNat < 4096)
    (hp : isPresent perm = false) (hps : isHuge perm = false)
    (hbound : ∀ f, s.mm.mappings D f < 65536) :
    Ends (fun _ => ¬ Steady s.mm l)
      (fun r => (r = (false, s) ∧ l = []) ∨
        (r.1 = true ∧ ∃ l', Inserted s r.2 D K l l' d pp va perm))
      (pageInsert s (some d) (some pp) va perm) := by
  unfold pageInsert
  dsimp only
  rw [if_neg (by simp [hp]), if_neg (by simp [hps])]
  simp only [pure_bind, ends_bind]
  refine (pgdirWalk_ends h hd (pdx_lt_of_lt hva)).post ?_
  rintro ⟨pte, s₁⟩ (⟨heq, hl⟩ | ⟨t, l₁, hr, hwalk⟩)
  · obtain ⟨rfl, rfl⟩ := Prod.mk.injEq .. ▸ heq
    exact Or.inl ⟨rfl, hl⟩
  · obtain rfl : pte = some ⟨t, ptx va⟩ := hr
    have hwalk : Walked s s₁ D K l l₁ d (pdx va) t := hwalk
    have hmappings : ∀ f, s₁.mm.mappings D f = s.mm.mappings D f :=
      mappings_congr fun d' hd' q hq =>
      hwalk.entry d' hd' q (PtInv.lt_pow_of_low hq) (h.not_window_of_low hd' hq)
    have hsame : s₁.mm.entry d (vpn va) = s.mm.entry d (vpn va) :=
      hwalk.entry d hd _ (vpn_lt va) (h.not_window_of_low hd (low_vpn hva))
    have hat :=
      insertAt_ends hwalk.inv hwalk.table hva (hwalk.held pp hheld) (hwalk.plain pp hheld hplain)
      hzero hperm fun f => (hmappings f).symm ▸ hbound f
    change Ends _ _ (insertAt s₁ d ⟨t, ptx va⟩ pp va perm)
    refine hat.mono (fun _ hns hs => hns (hwalk.steady hs)) ?_
    rintro ⟨b, s'⟩ ⟨hb, l', hpl⟩
    have hpl : InsertedAt s₁ s' D K l₁ l' d pp va perm := hpl
    refine Or.inr ⟨hb, l', hpl.inv, hpl.npages.trans hwalk.npages, ?_, ?_, ?_, ?_, ?_, ?_, ?_, ?_,
      fun hs => hpl.steady (hwalk.steady hs)⟩
    · rw [hpl.rewrites d hd _ (vpn_lt va), if_pos ⟨rfl, rfl⟩]
    · intro d' hd' q hq hne hwin
      rw [hpl.rewrites d' hd' q hq, if_neg hne, hwalk.entry d' hd' q hq hwin]
    · intro hmap
      have hP : isPresent (s.mm.word d (pdx va)) = true := by
        rcases h.entry_cases hd (low_vpn hva) with ⟨-, hz⟩ | ⟨t', ht', -⟩
        · rw [hz] at hmap
          exact absurd hmap (not_maps_zero _)
        · rw [pdx_eq]
          exact ht'.2.2.1
      have heq := hwalk.found hP
      subst heq
      exact hpl.again hmap
    · intro g
      rw [hpl.list g, hmappings g]
      constructor
      · rintro ⟨hgl, hg | hg⟩
        · exact absurd (hwalk.list g hg) hgl
        · exact hg
      · rintro ⟨hpos, hz⟩
        exact ⟨h.free.not_mem_of_held (h.held_of_mapped hpos).1, Or.inr ⟨hpos, hz⟩⟩
    · exact fun f hf => (hpl.refs f hf).trans (hwalk.refs f hf)
    · intro f hf hp hh
      exact (hpl.mem f (hwalk.plain f hf hp) hh).trans (hwalk.mem f hf hp)
    · exact hwalk.space.trans hpl.space
    · exact (hwalk.log.mono fun _ => Or.inl).trans (hpl.log.mono fun _ => Or.inr)

end Insert

/-! ### Sequences of calls -/

/-- The calls: `page_alloc(0)`, `page_insert` and `page_remove`. -/
inductive PtOp
  | alloc
  | insert (d pp : ℕ) (va perm : BitVec 32)
  | remove (d : ℕ) (va : BitVec 32)
  deriving DecidableEq

/-- What a call returns: a page or `NULL`, 0 or `-E_NO_MEM`, nothing. -/
inductive PtRes
  | page (pp : Option ℕ)
  | code (ok : Bool)
  | unit
  deriving DecidableEq

/-- A call. -/
def ptExec (s : Vm) : PtOp → Except Crash (PtRes × Vm)
  | .alloc => do
      let (pp, mm) ← pageAlloc s.mm 0
      pure (.page pp, { s with mm := mm })
  | .insert d pp va perm => do
      let (ok, s) ← pageInsert s (some d) (some pp) va perm
      pure (.code ok, s)
  | .remove d va => do
      let s ← pageRemove s (some d) va
      pure (.unit, s)

/-- A call that returns, with its result. -/
def ptStep (s : Vm) (a : PtOp × PtRes) (t : Vm) : Prop := ptExec s a.1 = Except.ok (a.2, t)

/-- **What a caller has to respect.** The page to insert is in use, is not frame 0 and is neither a
directory nor a page table, and its permissions are flags without `PTE_P` and `PTE_PS`; a page that
is removed is mapped. -/
def PtOp.Allowed (D K : Finset ℕ) (s : Vm) : PtOp → Prop
  | .alloc => True
  | .insert d pp va perm => d ∈ D ∧ va < uTop ∧ s.mm.Held pp ∧ s.mm.Plain D K pp ∧ pp ≠ 0 ∧
      perm.toNat < 4096 ∧ isPresent perm = false ∧ isHuge perm = false
  | .remove d va => d ∈ D ∧ va < uTop ∧ isPresent (s.mm.entry d (vpn va)) = true

/-- No frame has 65535 mappings. -/
def Roomy (D : Finset ℕ) (s : Vm) : Prop := ∀ f, s.mm.mappings D f < 65535

/-- A call that is allowed, in a state in which no frame has 65535 mappings. -/
def PtLegal (D K : Finset ℕ) (s : Vm) (a : PtOp × PtRes) : Prop := a.1.Allowed D K s ∧ Roomy D s

/-- The entries of all pages but one are as before, the window on the directory left aside. -/
def OthersKept (D : Finset ℕ) (s t : Vm) (d p : ℕ) : Prop :=
  ∀ d' ∈ D, ∀ q < 2 ^ 20, ¬ (d' = d ∧ q = p) → ¬ PtInv.Window s.mm d' q →
    t.mm.entry d' q = s.mm.entry d' q

/-- **What a call does to the entries.** A page that is inserted again where it is mapped is an
entry written over, and nothing else. -/
def PtPost (D : Finset ℕ) (s : Vm) : PtOp → PtRes → Vm → Prop
  | .alloc, .page _, t => ∀ d ∈ D, ∀ q < 2 ^ 20, t.mm.entry d q = s.mm.entry d q
  | .insert d pp va perm, .code true, t =>
      t.mm.entry d (vpn va) = page2pa pp ||| perm ||| pteP ∧ OthersKept D s t d (vpn va) ∧
        (Maps (s.mm.entry d (vpn va)) pp → ∃ p, s.pte p = s.mm.entry d (vpn va) ∧
          t = s.writePte p va pp (page2pa pp ||| perm ||| pteP))
  | .insert _ _ _ _, .code false, t => t = s
  | .remove d va, .unit, t => t.mm.entry d (vpn va) = 0 ∧ OthersKept D s t d (vpn va)
  | _, _, _ => False

/-- **The reference counts**: the number of entries that map the frame, and 1 for a page table. -/
def RefsExact (D K : Finset ℕ) (s : Vm) : Prop :=
  (∀ f < s.mm.npages, s.mm.Plain D K f → (s.ref f).toNat = s.mm.mappings D f) ∧
    ∀ d i t, s.mm.Table D d i t → s.ref t = 1

/-- The frame is on the free list. -/
def Mm.OnFreeList (m : Mm) (f : ℕ) : Prop := Visits m.link m.pageFreeList f

/-- **A frame goes back to the free list exactly when its last mapping disappears.** -/
def FreedExactly (D : Finset ℕ) (s t : Vm) : Prop :=
  ∀ f, (¬ s.mm.OnFreeList f ∧ t.mm.OnFreeList f) ↔ (0 < s.mm.mappings D f ∧ t.mm.mappings D f = 0)

section Calls

variable {D K : Finset ℕ} {l : List ℕ}

theorem PtInv.refsExact {s : Vm} (h : PtInv s.mm D K l) (hb : ∀ f, s.mm.mappings D f < 65536) :
    RefsExact D K s := by
  refine ⟨fun f hf hplain => ?_, fun d i t ht => (h.table d i t ht).2.2.2⟩
  have href : s.ref f = BitVec.ofNat 16 (s.mm.mappings D f) := h.ref f hf hplain
  rw [href, BitVec.toNat_ofNat]
  exact Nat.mod_eq_of_lt (hb f)

theorem FreeInv.freedExactly {s t : Vm} {l' : List ℕ} (h : FreeInv s.mm l) (h' : FreeInv t.mm l')
    (hlist : ∀ g, (g ∉ l ∧ g ∈ l') ↔ (0 < s.mm.mappings D g ∧ t.mm.mappings D g = 0)) :
    FreedExactly D s t := by
  intro f
  rw [Mm.OnFreeList, Mm.OnFreeList, h.visits_iff, h'.visits_iff]
  exact hlist f

/-- **One call.** -/
theorem ptExec_ends {s : Vm} (h : PtInv s.mm D K l) {op : PtOp} (hop : op.Allowed D K s)
    (hb : Roomy D s) :
    Ends (fun _ => ¬ Steady s.mm l)
      (fun r => ∃ l', PtInv r.2.mm D K l' ∧ PtPost D s op r.1 r.2 ∧
        (∀ g, (g ∉ l ∧ g ∈ l') ↔ (0 < s.mm.mappings D g ∧ r.2.mm.mappings D g = 0)) ∧
        (∀ f, r.2.mm.mappings D f ≤ s.mm.mappings D f + 1) ∧ (Steady s.mm l → Steady r.2.mm l'))
      (ptExec s op) := by
  have hroom : ∀ f, s.mm.mappings D f < 65536 := fun f => Nat.lt_succ_of_lt (hb f)
  -- where every entry of a page below `UTOP` stays, nothing is mapped less often
  have hquiet : ∀ (t : Vm) (l' : List ℕ), (∀ f, t.mm.mappings D f = s.mm.mappings D f) →
      (∀ g ∈ l', g ∈ l) →
      ∀ g, (g ∉ l ∧ g ∈ l') ↔ (0 < s.mm.mappings D g ∧ t.mm.mappings D g = 0) := by
    intro t l' hmap hsub g
    rw [hmap g]
    exact ⟨fun hg => absurd (hsub g hg.2) hg.1, fun hg => absurd hg.2 (Nat.ne_of_gt hg.1)⟩
  cases op with
  | alloc =>
      unfold ptExec
      rw [ends_bind]
      refine (pageAlloc_taken h.free (by decide) (by decide)).post ?_
      rintro ⟨pg, m₁⟩ (⟨heq, -⟩ | ⟨pp, hmem, -, htaken, hfree, hst⟩)
      · obtain ⟨rfl, rfl⟩ := Prod.mk.injEq .. ▸ heq
        refine ⟨l, h, fun _ _ _ _ => rfl, hquiet s l (fun _ => rfl) fun _ hg => hg, ?_, fun hs =>
          hs⟩
        exact fun f => Nat.le_succ _
      · obtain ⟨hinv, hentry⟩ := h.take hmem htaken hfree
        have hmap : ∀ f, m₁.mappings D f = s.mm.mappings D f :=
          mappings_congr fun d hd p hp => hentry d hd p (PtInv.lt_pow_of_low hp)
        refine ⟨l.erase pp, hinv, hentry, ?_, ?_, hst⟩
        · exact hquiet { s with mm := m₁ } _ hmap fun g hg => List.mem_of_mem_erase hg
        · exact fun f => (hmap f).le.trans (Nat.le_succ _)
  | insert d pp va perm =>
      obtain ⟨hd, hva, hheld, hplain, hzero, hperm, hp, hps⟩ := hop
      unfold ptExec
      rw [ends_bind]
      refine (pageInsert_ends h hd hva hheld hplain hzero hperm hp hps hroom).post ?_
      rintro ⟨b, t⟩ (⟨heq, -⟩ | ⟨hb', l', hins⟩)
      · obtain ⟨rfl, rfl⟩ := Prod.mk.injEq .. ▸ heq
        refine ⟨l, h, rfl, hquiet t l (fun _ => rfl) fun _ hg => hg, ?_, fun hs => hs⟩
        exact fun f => Nat.le_succ _
      · obtain rfl : b = true := hb'
        have hins : Inserted s t D K l l' d pp va perm := hins
        refine ⟨l', hins.inv, ⟨hins.entry, hins.others, hins.again⟩, hins.list, fun f => ?_,
          hins.steady⟩
        have hcount :=
          @mappings_update s.mm t.mm D d (vpn va) (insertPte pp perm) hd (low_vpn hva) ?_ f
        · have h₁ : (if Maps (insertPte pp perm) f then 1 else 0) ≤ 1 := by split <;> omega
          change t.mm.mappings D f ≤ _
          omega
        · intro d' hd' q hq
          split
          · rename_i heq
            obtain ⟨rfl, rfl⟩ := heq
            exact hins.entry
          · rename_i hne
            exact hins.others d' hd' q (PtInv.lt_pow_of_low hq) hne (h.not_window_of_low hd' hq)
  | remove d va =>
      obtain ⟨hd, hva, hP⟩ := hop
      unfold ptExec
      rw [ends_bind]
      rcases h.entry_cases hd (low_vpn hva) with ⟨-, hz⟩ | ⟨t, ht, hw⟩
      · rw [hz] at hP
        exact absurd hP (by decide)
      · rw [← pdx_eq] at ht
        rw [← ptx_eq] at hw
        rw [hw] at hP
        refine (pageRemove_ends h ht hP (hroom _)).post ?_
        rintro s' ⟨l', hrm⟩
        have hmap := hrm.rewrites.mappings hd hva
        refine ⟨l', hrm.inv, ⟨?_, ?_⟩, fun g => ?_, fun f => ?_, hrm.steady⟩
        · exact (hrm.rewrites d hd _ (vpn_lt va)).trans (if_pos ⟨rfl, rfl⟩)
        · intro d' hd' q hq hne _
          exact (hrm.rewrites d' hd' q hq).trans (if_neg hne)
        · rw [hrm.list g]
          constructor
          · rintro ⟨hg, hg' | hg'⟩
            · exact absurd hg' hg
            · exact hg'
          · intro hg
            exact ⟨h.free.not_mem_of_held (h.held_of_mapped hg.1).1, Or.inr hg⟩
        · have hf := hmap f
          rw [if_neg (not_maps_zero f)] at hf
          change s'.mm.mappings D f ≤ _
          omega

/-- The invariant along a sequence of calls. -/
theorem ptRun_inv {s₀ s : Vm} {l₀ : List ℕ} {tr : List (Vm × (PtOp × PtRes))}
    (h₀ : PtInv s₀.mm D K l₀) (hr : Run ptStep s₀ tr s) (hG : Meets (PtLegal D K) tr) :
    ∃ l, PtInv s.mm D K l ∧ (Steady s₀.mm l₀ → Steady s.mm l) := by
  let Inv := fun s : Vm => ∃ l, PtInv s.mm D K l ∧ (Steady s₀.mm l₀ → Steady s.mm l)
  refine hr.invariant (show ∀ s a t, Inv s → PtLegal D K s a → ptStep s a t → Inv t from ?_)
    ⟨l₀, h₀, fun hs => hs⟩ hG
  rintro s ⟨op, r⟩ t ⟨l, h, hst⟩ ⟨hop, hb⟩ hstep
  obtain ⟨l', h', -, -, -, hst'⟩ := (ptExec_ends h hop hb).of_ok hstep
  exact ⟨l', h', fun hs => hst' (hst hs)⟩

/-- **Page tables, reference counts and the free list, after any sequence of calls.** From a state
whose directories hold what they should, every call that is allowed changes the entries as it says,
leaves the reference counts exact and frees a frame exactly when its last mapping disappears; and it
returns, if the allocator does not stop the kernel. -/
theorem page_tables_exact {s₀ s : Vm} {l₀ : List ℕ} {tr : List (Vm × (PtOp × PtRes))} {op : PtOp}
    (h₀ : PtInv s₀.mm D K l₀) (hr : Run ptStep s₀ tr s) (hG : Meets (PtLegal D K) tr)
    (hop : op.Allowed D K s) (hb : Roomy D s) :
    RefsExact D K s ∧
      (∀ r t, ptStep s (op, r) t → PtPost D s op r t ∧ RefsExact D K t ∧ FreedExactly D s t) ∧
      (Steady s₀.mm l₀ → ∃ r t, ptStep s (op, r) t) := by
  obtain ⟨l, h, hst⟩ := ptRun_inv h₀ hr hG
  have hends := ptExec_ends h hop hb
  refine ⟨h.refsExact fun f => Nat.lt_succ_of_lt (hb f), fun r t hstep => ?_, fun hs => ?_⟩
  · obtain ⟨l', h', hpost, hlist, hle, -⟩ := hends.of_ok hstep
    refine ⟨hpost, h'.refsExact fun f => ?_, h.free.freedExactly h'.free hlist⟩
    have h₁ := hle f
    have h₂ := hb f
    omega
  · cases hexec : ptExec s op with
    | error c => exact absurd (hst hs) (hends.of_error hexec)
    | ok a => exact ⟨a.1, a.2, hexec⟩

end Calls

/-- Four frames: an empty directory, a page in use, and one free frame. -/
def mapFour : Vm where
  mm :=
    { npages := 4
      npages_le := frames_four
      premappedFlag := false
      pages := fun i => ⟨none, none, 0, if i = 1 ∨ i = 2 then alloc else 0⟩
      pageFreeList := some 3
      freePagesCount := 1
      lruLists := ⟨none, none, none, none, none, none⟩
      lruActiveCount := 0
      lruInactiveCount := 0
      mem := fun _ _ => 0 }
  envs := fun _ => ⟨none, fun _ => ⟨.unused, 0, 0, 0, none, 0, 0, 0, false⟩, none, none, 0⟩
  kernPgdir := fun _ => 0
  image := fun _ => 0
  envFrame := fun _ => 0
  written := []

theorem mapFour_inv : PtInv mapFour.mm {1} ∅ [3] := by
  have hzero : ∀ f i, mapFour.mm.word f i = 0 := fun f i => Mm.word_of_zero rfl i
  refine PtInv.empty ⟨⟨rfl, rfl⟩, ?_, fun _ _ => rfl⟩ ?_ (fun d _ => hzero d) fun _ _ _ => rfl
  · intro i hi
    rw [List.mem_singleton.1 hi]
    exact ⟨by decide, rfl, rfl⟩
  · intro d hd
    rw [Finset.mem_singleton.1 hd]
    exact ⟨by decide, by decide, by decide⟩

theorem mapFour_steady : Steady mapFour.mm [3] :=
  ⟨rfl, by decide, fun _ => [], by intro q; cases q <;> rfl, by simp, by simp⟩

theorem mapFour_insert :
    (ptExec mapFour (.insert 1 2 0x1000#32 pteW)).toOption.map Prod.fst = some (.code true) := by
  decide +kernel

/-- A page is mapped, with a page table for it, and unmapped again. -/
theorem page_tables_exact_four : ∃ s t : Vm,
    ptStep mapFour (.insert 1 2 0x1000#32 pteW, .code true) s ∧ s.mm.entry 1 1 = 0x2003#32 ∧
      ptStep s (.remove 1 0x1000#32, .unit) t ∧ t.mm.entry 1 1 = 0 ∧ RefsExact {1} ∅ t ∧
      FreedExactly {1} s t := by
  have hnone : ∀ f, mapFour.mm.mappings {1} f = 0 :=
    mappings_empty fun _ _ _ => Mm.word_of_zero rfl _
  have hroom : Roomy {1} mapFour := by
    intro f
    rw [hnone f]
    decide
  have hplain : mapFour.mm.Plain {1} ∅ 2 := by
    refine ⟨by decide, by simp, fun d i ht => ?_⟩
    have hP := ht.2.2.1
    rw [Mm.word_of_zero rfl] at hP
    exact absurd hP (by decide)
  have hins : (PtOp.insert 1 2 0x1000#32 pteW).Allowed {1} ∅ mapFour :=
    ⟨by simp, by decide, ⟨by decide, by decide, by decide⟩, hplain, by decide, by decide, by decide,
      by decide⟩
  cases hexec : ptExec mapFour (.insert 1 2 0x1000#32 pteW) with
  | error c =>
      have hres := mapFour_insert
      rw [hexec] at hres
      exact absurd hres (by simp [Except.toOption])
  | ok a =>
      obtain ⟨r, s⟩ := a
      obtain rfl : r = .code true := by
        have hres := mapFour_insert
        rw [hexec] at hres
        simpa [Except.toOption] using hres
      have hstep : ptStep mapFour (.insert 1 2 0x1000#32 pteW, .code true) s := hexec
      obtain ⟨-, hpost, -⟩ :=
        page_tables_exact mapFour_inv (Run.nil mapFour) (by simp [Meets]) hins hroom
      have hentry : s.mm.entry 1 1 = 0x2003#32 := (hpost _ s hstep).1.1
      obtain ⟨-, -, -, -, hle, -⟩ := (ptExec_ends mapFour_inv hins hroom).of_ok hexec
      have hroom' : Roomy {1} s := by
        intro f
        have hone : s.mm.mappings {1} f ≤ mapFour.mm.mappings {1} f + 1 := hle f
        rw [hnone f] at hone
        omega
      have hP : isPresent (s.mm.entry 1 (vpn 0x1000#32)) = true := by
        have hvpn : vpn 0x1000#32 = 1 := by decide
        rw [hvpn, hentry]
        decide
      have hrem : (PtOp.remove 1 0x1000#32).Allowed {1} ∅ s := ⟨by simp, by decide, hP⟩
      have hmeets : Meets (PtLegal {1} ∅) [(mapFour,
          (PtOp.insert 1 2 0x1000#32 pteW, PtRes.code true))] := by
        intro p hp
        rw [List.mem_singleton.1 hp]
        exact ⟨hins, hroom⟩
      obtain ⟨-, hpost', hreturns⟩ :=
        page_tables_exact mapFour_inv ((Run.nil mapFour).snoc hstep) hmeets hrem
        hroom'
      obtain ⟨r, t, ht⟩ := hreturns mapFour_steady
      obtain ⟨hpost₂, hrefs, hfreed⟩ := hpost' r t ht
      cases r with
      | page _ => exact hpost₂.elim
      | code _ => exact hpost₂.elim
      | unit => exact ⟨s, t, hstep, hentry, ht, hpost₂.1, hrefs, hfreed⟩

end Jos
