/-
**Filling an area with pages.**

`region_alloc` takes a frame for every page of an area, whether the page was mapped or not; then the
kernel writes to the area through the addresses of the environment. An area with 4 MB pages in it is
not looked at here.

Main definitions:

* `Jos.FillArea` — the pages that `region_alloc` is to replace;
* `Jos.PageFilled`, `Jos.AreaFilled` — **what a round, and all rounds, of `region_alloc` leave
  behind**;
* `Jos.PagesApart` — pages in frames of their own;
* `Jos.Wrote` — what the kernel has written.

Main results:

* `Jos.regionAlloc_filled` — the loop of `region_alloc`;
* `Jos.kernelFill_wrote` — the loops of `memcpy` and `memset`.
-/

import JosKernel.PageDedup
import JosKernel.PageFill
import JosKernel.UserMem

set_option relaxedAutoImplicit false
set_option autoImplicit false

namespace Jos

open LinkedList Outcome

/-! ### The frames of the page tables -/

theorem Mm.lowFrame_walkFrame {m : Mm} {d g : ℕ} (h : m.LowFrame d g) : m.WalkFrame d g := by
  rcases h with rfl | ⟨i, hi, hti, rfl⟩
  · exact Or.inl rfl
  · exact hti.walkFrame hi

/-- Nothing has changed for the walks of `d`. -/
theorem DirInv.congr {m m' : Mm} {d : ℕ} {l l' : List ℕ} (h : DirInv m d l)
    (hmem : ∀ g, m.WalkFrame d g → m'.mem g = m.mem g)
    (hflags : ∀ g, m.WalkFrame d g → (m'.pages g).pageFlags = (m.pages g).pageFlags)
    (hfree : FreeInv m' l') (hlist : ∀ g ∈ l', g ∈ l) :
    DirInv m' d l' ∧ (∀ g, m'.WalkFrame d g ↔ m.WalkFrame d g) ∧
      ∀ p, p / 1024 < pdx uTop → m'.leaf d p = m.leaf d p := by
  have hsame : SameTables m m' d := SameTables.of_mem (hmem d (Or.inl rfl))
  refine ⟨⟨h.toTlbTables.congr hsame fun g hg => ?_, hfree, fun g hg hc => ?_⟩, fun g =>
    hsame.walkFrame_iff, fun p hp => ?_⟩
  · rw [PageInfo.has, hflags g hg]
    exact h.unmarked g hg
  · exact h.busy g (hsame.walkFrame_iff.1 hg) (hlist g hc)
  · exact Mm.leaf_congr (fun g hg => hmem g (Mm.lowFrame_walkFrame hg)) hp

theorem Mm.mapsTo_congr {m m' : Mm} {d q : ℕ} (h : m'.leaf d q = m.leaf d q) (g : ℕ) :
    m'.MapsTo d q g ↔ m.MapsTo d q g := by
  rw [Mm.MapsTo, Mm.MapsTo, h]

/-- The page is not in the frame of a 4 MB page. -/
theorem Mm.small_of_leaf {m : Mm} {d q : ℕ} (h : ∀ w, m.leaf d q ≠ some (w, true))
    (hP : isPresent (m.word d (q / 1024)) = true) :
    isHuge (m.word d (q / 1024)) = false := by
  by_contra hH
  refine h (m.word d (q / 1024)) ?_
  unfold Mm.leaf
  rw [if_pos hP, if_pos (Bool.eq_true_of_not_eq_false hH)]

/-- The areas and the directories are the same, and so is what the kernel never changes. -/
structure AreasKept (s s' : Vm) : Prop where
  pgdir : ∀ e, s'.pgdir e = s.pgdir e
  vmas : ∀ e, (s'.envs e).vmas = (s.envs e).vmas
  list : ∀ e, (s'.envs e).allocVmaList = (s.envs e).allocVmaList
  image : s'.image = s.image

namespace AreasKept

theorem refl (s : Vm) : AreasKept s s := ⟨fun _ => rfl, fun _ => rfl, fun _ => rfl, rfl⟩

theorem trans {s s' s'' : Vm} (h : AreasKept s s') (h' : AreasKept s' s'') : AreasKept s s'' :=
  ⟨fun e => (h'.pgdir e).trans (h.pgdir e), fun e => (h'.vmas e).trans (h.vmas e), fun e =>
    (h'.list e).trans (h.list e),
    h'.image.trans h.image⟩

theorem of_envs {s s' : Vm} (h : s'.envs = s.envs) (himage : s'.image = s.image) : AreasKept s s' :=
  ⟨fun e => by rw [Vm.pgdir, Vm.pgdir, h], fun e => by rw [h], fun e => by rw [h], himage⟩

theorem addPages (s : Vm) (e : ℕ) (n : BitVec 32) : AreasKept s (addPages s e n) := by
  have hupd : ∀ e', ((Jos.addPages s e n).envs e').pgdir = (s.envs e').pgdir ∧
      ((Jos.addPages s e n).envs e').vmas = (s.envs e').vmas ∧
      ((Jos.addPages s e n).envs e').allocVmaList = (s.envs e').allocVmaList := by
    intro e'
    by_cases he : e' = e
    · subst he
      change ((Function.update s.envs e' _) e').pgdir = _ ∧
        ((Function.update s.envs e' _) e').vmas = _ ∧
        ((Function.update s.envs e' _) e').allocVmaList = _
      rw [Function.update_self]
      exact ⟨rfl, rfl, rfl⟩
    · change ((Function.update s.envs e _) e').pgdir = _ ∧
        ((Function.update s.envs e _) e').vmas = _ ∧
        ((Function.update s.envs e _) e').allocVmaList = _
      rw [Function.update_of_ne he]
      exact ⟨rfl, rfl, rfl⟩
  exact ⟨fun e' => (hupd e').1, fun e' => (hupd e').2.1, fun e' => (hupd e').2.2, rfl⟩

end AreasKept

/-! ### The loop of `region_alloc` -/

/-- `page_alloc(0)` does not touch memory. -/
theorem pageAlloc_mem {m : Mm} (hpre : m.premappedFlag = false) :
    Ends (fun _ => True) (fun r => r.2.mem = m.mem) (pageAlloc m 0) := by
  unfold pageAlloc
  refine ends_ite (fun _ => rfl) fun _ => ?_
  rw [if_neg (by decide), if_neg (by rw [hpre]; exact Bool.false_ne_true)]
  unfold removeHeadPfl
  cases m.pageFreeList with
  | none => exact True.intro
  | some hd =>
      simp only [ends_bind]
      refine ends_ite (fun _ => True.intro) fun _ => ?_
      rw [ends_bind]
      refine (decFreePages_mem _).post fun m₁ hm₁ => ?_
      unfold pageAllocFinish markPoison
      refine ends_ite (fun _ => True.intro) fun _ => ?_
      rw [if_neg (by decide), pure_bind, if_neg (by decide)]
      exact hm₁

/-- **The pages that are to be filled**, from `q₀` on: they are below `UTOP` and not in 4 MB pages,
and those that are mapped are in frames of their own. -/
structure FillArea (m : Mm) (d q₀ n : ℕ) : Prop where
  low : q₀ + n ≤ pdx uTop * 1024
  small : ∀ j < n, ∀ w, m.leaf d (q₀ + j) ≠ some (w, true)
  held : ∀ j < n, ∀ g, m.MapsTo d (q₀ + j) g → m.Held g ∧ ¬ m.WalkFrame d g
  single : ∀ i < n, ∀ j < n, ∀ g, m.MapsTo d (q₀ + i) g → m.MapsTo d (q₀ + j) g → i = j

/-- **The state after `k` of the `n` rounds of `region_alloc`**, with the frames `fr` that the pages
have got. -/
structure AreaFilled (s s' : Vm) (d q₀ k n : ℕ) (perm : BitVec 32) (l l' : List ℕ) (fr : ℕ → ℕ) :
    Prop where
  inv : DirInv s'.mm d l'
  leaf_new : ∀ j < k, s'.mm.leaf d (q₀ + j) = some (newPte (fr j) perm, false)
  leaf_old : ∀ p, p / 1024 < pdx uTop → (∀ j < k, p ≠ q₀ + j) →
    s'.mm.leaf d p = s.mm.leaf d p ∨ s.mm.leaf d p = none ∧ s'.mm.leaf d p = some (0, false)
  fresh : ∀ j < k, fr j < s.mm.npages ∧ fr j ∉ l' ∧ ¬ s'.mm.WalkFrame d (fr j) ∧
    ¬ s.mm.MapsTo d (q₀ + j) (fr j)
  apart : ∀ j < k, ∀ i < n, k ≤ i → ¬ s.mm.MapsTo d (q₀ + i) (fr j)
  inj : ∀ i < k, ∀ j < k, fr i = fr j → i = j
  todo : ∀ i < n, k ≤ i → ∀ g, s.mm.MapsTo d (q₀ + i) g → s'.mm.Held g ∧ ¬ s'.mm.WalkFrame d g
  keep : ∀ g ∉ l, ¬ s.mm.WalkFrame d g → (∀ j < n, ¬ s.mm.MapsTo d (q₀ + j) g) →
    s'.mm.mem g = s.mm.mem g ∧ g ∉ l' ∧ ¬ s'.mm.WalkFrame d g ∧ ∀ j < k, fr j ≠ g
  walk : ∀ g, s.mm.WalkFrame d g → s'.mm.WalkFrame d g
  dir : DirGrows s.mm s'.mm d
  begin : k = 0 → s' = s
  first : s.mm.premappedFlag = false → 0 < k → s.mm.pageFreeList = some (fr 0) ∧
    s'.mm.mem (fr 0) = s.mm.mem (fr 0)
  npages : s'.mm.npages = s.mm.npages
  same : AreasKept s s'

theorem AreaFilled.start {s : Vm} {d q₀ n : ℕ} {l : List ℕ} {perm : BitVec 32} (h : DirInv s.mm d l)
    (ha : FillArea s.mm d q₀ n) :
    AreaFilled s s d q₀ 0 n perm l l id where
  inv := h
  leaf_new j hj := absurd hj (Nat.not_lt_zero j)
  leaf_old _ _ _ := Or.inl rfl
  fresh j hj := absurd hj (Nat.not_lt_zero j)
  apart j hj := absurd hj (Nat.not_lt_zero j)
  inj i hi := absurd hi (Nat.not_lt_zero i)
  todo i hi _ := ha.held i hi
  keep _ hg hgw _ := ⟨rfl, hg, hgw, fun j hj => absurd hj (Nat.not_lt_zero j)⟩
  walk _ hg := hg
  dir := .of_eq fun _ => rfl
  begin _ := rfl
  first _ h := absurd h (Nat.lt_irrefl 0)
  npages := rfl
  same := AreasKept.refl s

/-- The pages that are still to be filled have the entries they had. -/
theorem AreaFilled.mapsTo_todo {s s' : Vm} {d q₀ k n : ℕ} {l l' : List ℕ} {perm : BitVec 32}
    {fr : ℕ → ℕ} (h : AreaFilled s s' d q₀ k n perm l l' fr) (ha : FillArea s.mm d q₀ n) {i g : ℕ}
    (hi : i < n) (hk : k ≤ i) :
    s'.mm.MapsTo d (q₀ + i) g ↔ s.mm.MapsTo d (q₀ + i) g := by
  have hlow := ha.low
  rcases h.leaf_old (q₀ + i) (by omega) (fun j hj => by omega) with hsame | ⟨hnone, hzero⟩
  · exact Mm.mapsTo_congr hsame g
  · refine iff_of_false ?_ ?_
    · rintro ⟨w, hw, hP, -⟩
      rw [hzero] at hw
      rw [← (Prod.mk.inj (Option.some.inj hw)).1] at hP
      exact absurd hP (by decide)
    · rintro ⟨w, hw, -⟩
      rw [hnone] at hw
      exact nomatch hw

/-- **One page has been filled**: the page `q` has got the frame `f` of the free list. -/
structure PageFilled (s s' : Vm) (d q f : ℕ) (perm : BitVec 32) (l l' : List ℕ) : Prop where
  inv : DirInv s'.mm d l'
  free : f ∈ l
  leaf_self : s'.mm.leaf d q = some (newPte f perm, false)
  leaf_other : ∀ p, p / 1024 < pdx uTop → p ≠ q →
    s'.mm.leaf d p = s.mm.leaf d p ∨ s.mm.leaf d p = none ∧ s'.mm.leaf d p = some (0, false)
  taken : f ∉ l' ∧ ¬ s'.mm.WalkFrame d f
  off : ∀ g ∉ l, ¬ s.mm.MapsTo d q g → g ∉ l'
  aside : ∀ g ∉ l, ¬ s.mm.WalkFrame d g → ¬ s'.mm.WalkFrame d g
  held : ∀ g ∉ l, ¬ s.mm.MapsTo d q g → s.mm.Held g → s'.mm.Held g
  keep : ∀ g ∉ l, ¬ s.mm.WalkFrame d g → ¬ s.mm.MapsTo d q g → s'.mm.mem g = s.mm.mem g
  walk : ∀ g, s.mm.WalkFrame d g → s'.mm.WalkFrame d g
  dir : DirGrows s.mm s'.mm d
  head : s.mm.premappedFlag = false → s.mm.pageFreeList = some f ∧ s'.mm.mem f = s.mm.mem f
  npages : s'.mm.npages = s.mm.npages
  same : AreasKept s s'

/-- **A round of `region_alloc`**, for a page that is not in a 4 MB page. -/
theorem regionAllocRound_filled {s : Vm} {e d k q : ℕ} {va perm : BitVec 32} {l : List ℕ}
    (h : DirInv s.mm d l) (hd : s.pgdir e = some d) (hvpn : vpn (pageAt va k) = q)
    (hlow : q / 1024 < pdx uTop) (hperm : isHuge perm = false)
    (hbig : ∀ w, s.mm.leaf d q ≠ some (w, true))
    (hheld : ∀ g, s.mm.MapsTo d q g → s.mm.Held g ∧ ¬ s.mm.WalkFrame d g) :
    Ends (fun _ => True) (fun s' => ∃ f l', PageFilled s s' d q f perm l l')
      (regionAllocRound e va perm s k) := by
  unfold regionAllocRound
  rw [ends_bind]
  have hplain : Ends (fun _ => True) (fun r => s.mm.premappedFlag = false →
      r.2.mem = s.mm.mem ∧ ∀ pp, r.1 = some pp →
        s.mm.pageFreeList = some pp) (pageAlloc s.mm 0) := by
    cases hpre : s.mm.premappedFlag with
    | true => exact Ends.of_forall (fun _ hc => nomatch hc) _
    | false =>
        exact ((pageAlloc_mem hpre).and (pageAlloc_head hpre (by decide))).mono
          (fun _ _ => True.intro) fun r hr _ => hr
  refine ((pageAlloc_taken h.free (by decide) (by decide)).and hplain).mono
    (fun _ _ => True.intro) ?_
  rintro ⟨p, m₁⟩ ⟨⟨heq, -⟩ | ⟨f, hfl, hpf, htaken, hfree, -⟩, hplain⟩
  · obtain ⟨rfl, rfl⟩ := Prod.mk.inj heq
    exact True.intro
  obtain rfl : p = some f := hpf
  have htaken : Taken s.mm m₁ 0 f := htaken
  have hfree : FreeInv m₁ (l.erase f) := hfree
  have herase : f ∉ l.erase f := fun hc => ((h.free.chain.nodup.mem_erase_iff).1 hc).1 rfl
  have hne : ∀ g, s.mm.WalkFrame d g → g ≠ f := fun g hg hc => h.busy g hg (hc ▸ hfl)
  have hfresh : ¬ s.mm.MapsTo d q f := fun hc => h.free.not_mem_of_held (hheld f hc).1 hfl
  -- the frame is taken
  obtain ⟨hinv₁, hwalk₁, hleaf₁⟩ := @DirInv.congr _ m₁ _ _ _ h (fun g hg => htaken.mem g (hne g hg))
    (fun g hg => htaken.flags g (hne g hg)) hfree fun g hg => List.mem_of_mem_erase hg
  have hmaps₁ : ∀ g, m₁.MapsTo d q g ↔ s.mm.MapsTo d q g := Mm.mapsTo_congr (hleaf₁ _ hlow)
  have hheld₁ : ∀ g, s.mm.MapsTo d q g → m₁.Held g ∧ ¬ m₁.WalkFrame d g ∧ g ≠ f := by
    intro g hg
    have hgf : g ≠ f := fun hc => hfresh (hc ▸ hg)
    exact ⟨(hheld g hg).1.congr htaken.npages (htaken.flags g hgf),
      fun hc => (hheld g hg).2 ((hwalk₁ g).1 hc), hgf⟩
  -- and mapped
  have hd' : ({ s with mm := m₁ } : Vm).pgdir e = some d := hd
  dsimp only
  rw [hd', ends_bind]
  have hsmall : isPresent (m₁.word d (q / 1024)) = true → isHuge (m₁.word d (q / 1024)) = false :=
    Mm.small_of_leaf fun w hw => hbig w ((hleaf₁ _ hlow).symm.trans hw)
  rw [← hvpn] at hlow hsmall hmaps₁ hheld₁
  refine (pageInsert_placed (s := { s with mm := m₁ }) hinv₁ hlow hsmall hperm herase
    fun g hg => hheld₁ g ((hmaps₁ g).1 hg)).mono (fun _ _ => True.intro) ?_
  rw [hvpn] at hlow hmaps₁ ⊢
  rintro ⟨ok, s₂⟩ (⟨heq, -⟩ | ⟨hok, l₂, hplaced⟩)
  · obtain ⟨rfl, rfl⟩ := Prod.mk.inj heq
    exact True.intro
  obtain rfl : ok = true := hok
  have hplaced : PagePut { s with mm := m₁ } s₂ d q f perm (l.erase f) l₂ := hplaced
  have hlru := lruHaInsert_lruOnly s₂.mm f
  obtain ⟨hinv₃, hwalk₃, hleaf₃⟩ :=
    @DirInv.congr _ (lruHaInsert s₂.mm f) _ _ _ hplaced.inv (fun g _ => congrFun hlru.mem g)
    (fun g _ => hlru.flags g) (hplaced.inv.free.lruOnly hlru) fun _ hg => hg
  -- the frames that are not free and not those of page tables stay so
  have haside : ∀ g, g ∉ l → ¬ s.mm.WalkFrame d g → ¬ s₂.mm.WalkFrame d g := fun g hg hgw hc =>
    (hplaced.walkNew g hc).elim (fun hc => hgw ((hwalk₁ g).1 hc)) fun hc =>
      hg (List.mem_of_mem_erase hc)
  have hfaside : ¬ s₂.mm.WalkFrame d f :=
    fun hc => (hplaced.walkNew f hc).elim (fun hc => hne f ((hwalk₁ f).1 hc) rfl) herase
  have hmem : ∀ g, ¬ s₂.mm.WalkFrame d g → ¬ s.mm.MapsTo d q g → s₂.mm.mem g = m₁.mem g :=
    fun g hg hno =>
    hplaced.keep g hg fun hc => hno ((hmaps₁ g).1 hc)
  simp only [not_true_eq_false, if_false, ends_pure]
  refine ⟨f, l₂, hinv₃, hfl, (hleaf₃ _ hlow).trans hplaced.leaf_self, fun p hp hpq => ?_,
    ⟨fun hc => ?_, fun hc => hfaside ((hwalk₃ f).1 hc)⟩,
    fun g hg hno hc => ?_, fun g hg hgw hc => haside g hg hgw ((hwalk₃ g).1 hc), fun g hg hno hh =>
      ?_, fun g hg hgw hno => ?_,
    fun g hg => (hwalk₃ g).2 (hplaced.walk g ((hwalk₁ g).2 hg)), ?_, fun hpre => ?_, ?_, ?_⟩
  · change (lruHaInsert s₂.mm f).leaf d p = _ ∨ _ ∧ (lruHaInsert s₂.mm f).leaf d p = _
    rw [hleaf₃ p hp]
    rcases hplaced.leaf_other p hpq hp with hsame | ⟨-, hnone, hzero⟩
    · exact Or.inl (hsame.trans (hleaf₁ p hp))
    · exact Or.inr ⟨(hleaf₁ p hp).symm.trans hnone, hzero⟩
  · exact (hplaced.list f hc).elim herase fun hc => hfresh ((hmaps₁ f).1 hc)
  · exact (hplaced.list g hc).elim (fun hc => hg (List.mem_of_mem_erase hc)) fun hc =>
      hno ((hmaps₁ g).1 hc)
  · have hgf : g ≠ f := fun hc => hg (hc ▸ hfl)
    have hflags :=
      (hplaced.pages g (fun hc => hg (List.mem_of_mem_erase hc)) fun hc => hno ((hmaps₁ g).1 hc)).1
    exact (hh.congr htaken.npages (htaken.flags g hgf)).congr (hlru.npages.trans hplaced.npages)
      ((hlru.flags g).trans hflags)
  · have hgf : g ≠ f := fun hc => hg (hc ▸ hfl)
    exact (congrFun hlru.mem g).trans ((hmem g (haside g hg hgw) hno).trans (htaken.mem g hgf))
  · refine @DirGrows.trans _ m₁ _ _ (.of_eq (Mm.word_of_mem (htaken.mem d (hne d (Or.inl rfl))))) ?_
    exact hplaced.dir.trans (.of_eq (Mm.word_of_mem (congrFun hlru.mem d)))
  · obtain ⟨hmem₁, hhead⟩ := hplain hpre
    exact ⟨hhead f rfl, (congrFun hlru.mem f).trans
      ((hmem f hfaside hfresh).trans (congrFun hmem₁ f))⟩
  · exact hlru.npages.trans (hplaced.npages.trans htaken.npages)
  · exact (@AreasKept.of_envs s { s₂ with mm := lruHaInsert s₂.mm f } hplaced.space.envs
      hplaced.space.image).trans (AreasKept.addPages _ e 1)

section Rounds

variable {s s' s'' : Vm} {e d q₀ k n f : ℕ} {va perm : BitVec 32} {l l' l'' : List ℕ} {fr : ℕ → ℕ}

/-- **One more page.** -/
theorem AreaFilled.filled (h : AreaFilled s s' d q₀ k n perm l l' fr) (ha : FillArea s.mm d q₀ n)
    (hk : k < n) (hp : PageFilled s' s'' d (q₀ + k) f perm l' l'') :
    AreaFilled s s'' d q₀ (k + 1) n perm l l'' fun j => if j = k then f else fr j := by
  have hlow := ha.low
  have hfresh : ∀ i < n, k ≤ i → ¬ s.mm.MapsTo d (q₀ + i) f := fun i hi hki hc =>
    h.inv.free.not_mem_of_held (h.todo i hi hki f hc).1 hp.free
  have hmaps : ∀ g, s'.mm.MapsTo d (q₀ + k) g ↔ s.mm.MapsTo d (q₀ + k) g :=
    fun _ => h.mapsTo_todo ha hk (Nat.le_refl k)
  refine ⟨hp.inv, fun j hj => ?_, fun p hpl hpj => ?_, fun j hj => ?_, fun j hj i hi hki => ?_,
    fun i hi j hj heq => ?_, fun i hi hki g hg => ?_,
    fun g hg hgw hno => ?_, fun g hg => hp.walk g (h.walk g hg), h.dir.trans hp.dir, fun hc =>
      (nomatch hc),
    fun hpre _ => ?_, hp.npages.trans h.npages, h.same.trans hp.same⟩
  · by_cases hjk : j = k
    · rw [if_pos hjk, hjk]
      exact hp.leaf_self
    · rw [if_neg hjk]
      have hnew := h.leaf_new j (by omega)
      rcases hp.leaf_other (q₀ + j) (by omega) (by omega) with hsame | ⟨hnone, -⟩
      · exact hsame.trans hnew
      · rw [hnew] at hnone
        exact nomatch hnone
  · have hold := h.leaf_old p hpl fun j hj => hpj j (by omega)
    rcases hp.leaf_other p hpl (hpj k (Nat.lt_succ_self k)) with hsame | ⟨hnone, hzero⟩
    · rcases hold with hsame' | ⟨hnone', hzero'⟩
      · exact Or.inl (hsame.trans hsame')
      · exact Or.inr ⟨hnone', hsame.trans hzero'⟩
    · rcases hold with hsame' | ⟨-, hzero'⟩
      · exact Or.inr ⟨hsame'.symm.trans hnone, hzero⟩
      · rw [hnone] at hzero'
        exact nomatch hzero'
  · by_cases hjk : j = k
    · rw [if_pos hjk, hjk]
      exact ⟨h.npages ▸ (h.inv.free.listed f hp.free).1, hp.taken.1, hp.taken.2,
        hfresh k hk (Nat.le_refl k)⟩
    · have hj' : j < k := by omega
      obtain ⟨hlt, hnl, hnw, hnm⟩ := h.fresh j hj'
      rw [if_neg hjk]
      exact ⟨hlt, hp.off _ hnl fun hc => h.apart j hj' k hk (Nat.le_refl k) ((hmaps _).1 hc),
        hp.aside _ hnl hnw, hnm⟩
  · by_cases hjk : j = k
    · rw [if_pos hjk]
      exact hfresh i hi (by omega)
    · rw [if_neg hjk]
      exact h.apart j (by omega) i hi (by omega)
  · have hdiff : ∀ j < k, fr j ≠ f := fun j hj hc => (h.fresh j hj).2.1 (hc ▸ hp.free)
    by_cases hik : i = k
    · by_cases hjk : j = k
      · rw [hik, hjk]
      · rw [if_pos hik, if_neg hjk] at heq
        exact (hdiff j (by omega) heq.symm).elim
    · by_cases hjk : j = k
      · rw [if_neg hik, if_pos hjk] at heq
        exact (hdiff i (by omega) heq).elim
      · rw [if_neg hik, if_neg hjk] at heq
        exact h.inj i (by omega) j (by omega) heq
  · obtain ⟨hheld, hnw⟩ := h.todo i hi (by omega) g hg
    have hgl := h.inv.free.not_mem_of_held hheld
    have hgk : ¬ s'.mm.MapsTo d (q₀ + k) g := fun hc => by
      have := ha.single i hi k hk g hg ((hmaps g).1 hc)
      omega
    exact ⟨hp.held g hgl hgk hheld, hp.aside g hgl hnw⟩
  · obtain ⟨hmem, hgl, hnw, hnf⟩ := h.keep g hg hgw hno
    have hgk : ¬ s'.mm.MapsTo d (q₀ + k) g := fun hc => hno k hk ((hmaps g).1 hc)
    refine ⟨(hp.keep g hgl hnw hgk).trans hmem, hp.off g hgl hgk, hp.aside g hgl hnw, fun j hj =>
      ?_⟩
    by_cases hjk : j = k
    · rw [if_pos hjk]
      exact fun hc => hgl (hc ▸ hp.free)
    · rw [if_neg hjk]
      exact hnf j (by omega)
  · by_cases hk₀ : k = 0
    · obtain rfl := h.begin hk₀
      rw [if_pos hk₀.symm]
      exact hp.head hpre
    · have hpos : 0 < k := Nat.pos_of_ne_zero hk₀
      obtain ⟨hhead, hmem⟩ := h.first hpre hpos
      obtain ⟨-, hnl, hnw, -⟩ := h.fresh 0 hpos
      rw [if_neg (Ne.symm hk₀)]
      exact ⟨hhead, (hp.keep _ hnl hnw fun hc => h.apart 0 hpos k hk (Nat.le_refl k)
        ((hmaps _).1 hc)).trans hmem⟩

/-- **One round of `region_alloc`.** -/
theorem AreaFilled.round (h : AreaFilled s s' d (vpn va) k n perm l l' fr)
    (ha : FillArea s.mm d (vpn va) n) (hd : s.pgdir e = some d) (hperm : isHuge perm = false)
    (hk : k < n) :
    Ends (fun _ => True) (fun s'' => ∃ l'' fr',
      AreaFilled s s'' d (vpn va) (k + 1) n perm l l'' fr')
      (regionAllocRound e va perm s' k) := by
  have hlow := ha.low
  have hU := pdx_uTop
  have hvpn : vpn (pageAt va k) = vpn va + k := by
    refine vpn_pageAt ?_
    have hva : va.toNat / 4096 = vpn va := rfl
    omega
  have hbig : ∀ w, s'.mm.leaf d (vpn va + k) ≠ some (w, true) := by
    intro w hw
    rcases h.leaf_old (vpn va + k) (by omega) (fun j hj => by omega) with hsame | ⟨-, hzero⟩
    · rw [hsame] at hw
      exact ha.small k hk w hw
    · rw [hzero] at hw
      exact nomatch hw
  refine (regionAllocRound_filled h.inv ((h.same.pgdir e).trans hd) hvpn (by omega) hperm hbig
    fun g hg => ?_).post ?_
  · exact h.todo k hk (Nat.le_refl k) g ((h.mapsTo_todo ha hk (Nat.le_refl k)).1 hg)
  · rintro s'' ⟨f, l'', hp⟩
    exact ⟨l'', _, h.filled ha hk hp⟩

end Rounds

/-- **The whole of `region_alloc`** on an area that starts and ends at the bounds of pages. -/
theorem regionAlloc_filled {s : Vm} {e d n : ℕ} {va len perm : BitVec 32} {l : List ℕ}
    (h : DirInv s.mm d l) (ha : FillArea s.mm d (vpn va) n) (hd : s.pgdir e = some d)
    (hal : va.toNat % 4096 = 0) (hlen : len.toNat = n * 4096) (hperm : isHuge perm = false) :
    Ends (fun _ => True) (fun s' => ∃ l' fr, AreaFilled s s' d (vpn va) n n perm l l' fr)
      (regionAlloc s e va len perm) := by
  have hbase : roundDown va (BitVec.ofNat 32 pgSize) = va := by
    refine BitVec.eq_of_toNat_eq ?_
    rw [roundDown_page, vpn]
    omega
  have hcount : pageCount (len + (va - va)) = n := by
    rw [BitVec.sub_self, BitVec.add_zero]
    have hlt := len.isLt
    rw [pageCount, toNat_roundUp (by omega), pagesOf, pgSize, hlen]
    omega
  unfold regionAlloc
  dsimp only
  rw [hbase, hcount, List.range_eq_range']
  refine (ends_foldlM_range' (P := fun k s' => ∃ l' fr, AreaFilled s s' d (vpn va) k n perm l l' fr)
    ⟨l, id, AreaFilled.start h ha⟩
    fun k hk s' hs' => ?_).post fun s' hs' => hs'
  obtain ⟨l', fr, hfill⟩ := hs'
  rw [Nat.zero_add]
  exact hfill.round ha hd hperm hk

/-! ### What the kernel writes -/

/-- The hardware reads the frames of a walk only. -/
theorem mmu_congr {s s' : Vm} {e d : ℕ} (hd : s.pgdir e = some d) (hd' : s'.pgdir e = some d)
    (h : ∀ g, s.mm.WalkFrame d g → s'.mm.mem g = s.mm.mem g) (va : BitVec 32) (user write : Bool) :
    mmu s' e va user write = mmu s e va user write := by
  have hpde : s'.pte ⟨d, pdx va⟩ = s.pte ⟨d, pdx va⟩ := Mm.word_of_mem (h d (Or.inl rfl)) _
  unfold mmu
  rw [hd, hd']
  dsimp only
  rw [hpde]
  cases hP : isPresent (s.pte ⟨d, pdx va⟩) with
  | false => rfl
  | true =>
      cases hH : isHuge (s.pte ⟨d, pdx va⟩) with
      | true => rfl
      | false =>
          have htab : s.mm.WalkFrame d (pgnum (s.pte ⟨d, pdx va⟩)) := by
            refine Or.inr ⟨pdx va, ?_, ⟨hP, hH⟩, rfl⟩
            rw [pdx_eq]
            exact vpn_div_lt va
          have hpte : s'.pte ⟨pgnum (s.pte ⟨d, pdx va⟩), ptx va⟩ = s.pte
              ⟨pgnum (s.pte ⟨d, pdx va⟩), ptx va⟩ :=
            Mm.word_of_mem (h _ htab) _
          simp only [hpte]

/-- The hardware reads the entry of the page and, above it, the permissions of the page table. -/
theorem mmu_eq {s : Vm} {e d : ℕ} (hd : s.pgdir e = some d) (va : BitVec 32) (user write : Bool) :
    mmu s e va user write =
      match s.mm.leaf d (vpn va) with
      | none => .notPresent
      | some (w, true) =>
          if allows w user write then .frame (pgnum w / kb * kb + ptx va) else .protection
      | some (w, false) =>
          if ¬ isPresent w then .notPresent
          else if allows (s.mm.word d (vpn va / 1024)) user write && allows w user write then .frame
            (pgnum w) else .protection := by
  have hpde : s.pte ⟨d, pdx va⟩ = s.mm.word d (vpn va / 1024) := by
    rw [pdx_eq]
    rfl
  unfold mmu Mm.leaf
  rw [hd]
  dsimp only
  rw [hpde, ptx_eq]
  by_cases hP : isPresent (s.mm.word d (vpn va / 1024)) = true
  · rw [if_pos hP, if_neg (not_not_intro hP)]
    by_cases hH : isHuge (s.mm.word d (vpn va / 1024)) = true
    · rw [if_pos hH, if_pos hH]
    · rw [if_neg hH, if_neg hH]
      rfl
  · rw [if_neg hP, if_pos hP]

/-- The kernel may read every page that is mapped. -/
theorem mmu_read {s : Vm} {e d : ℕ} (hd : s.pgdir e = some d) (va : BitVec 32) :
    mmu s e va false false = match s.mm.translate d (vpn va) with
      | none => .notPresent
      | some (f, _) => .frame f := by
  have hall : ∀ w, allows w false false = true := fun _ => rfl
  rw [mmu_eq hd, Mm.translate]
  cases s.mm.leaf d (vpn va) with
  | none => rfl
  | some r =>
      obtain ⟨w, b⟩ := r
      cases b with
      | true =>
          dsimp only
          rw [hall, if_pos rfl, ptx_eq]
          rfl
      | false =>
          dsimp only
          rw [hall, hall, Bool.and_self]
          by_cases hP : isPresent w = true
          · rw [if_neg (not_not_intro hP), if_pos rfl, if_pos hP]
          · rw [if_pos hP, if_neg hP]

/-- A page is the same for the hardware when its entry is the same, and above it the one of the page
table. -/
theorem mmu_same {s s' : Vm} {e d : ℕ} {va : BitVec 32} (hd : s.pgdir e = some d)
    (hd' : s'.pgdir e = some d) (hleaf : s'.mm.leaf d (vpn va) = s.mm.leaf d (vpn va))
    (hdir : s'.mm.word d (vpn va / 1024) = s.mm.word d (vpn va / 1024)) (user write : Bool) :
    mmu s' e va user write = mmu s e va user write := by
  rw [mmu_eq hd, mmu_eq hd', hleaf, hdir]

/-- The frame that the hardware finds is the one of the translation. -/
theorem translate_of_mmu {s : Vm} {e d f : ℕ} {va : BitVec 32} {user write : Bool}
    (hd : s.pgdir e = some d) (h : mmu s e va user write = .frame f) :
    ∃ b, s.mm.translate d (vpn va) = some (f, b) := by
  rw [mmu_eq hd] at h
  unfold Mm.translate
  cases hleaf : s.mm.leaf d (vpn va) with
  | none =>
      rw [hleaf] at h
      exact nomatch h
  | some r =>
      obtain ⟨w, b⟩ := r
      rw [hleaf] at h
      refine ⟨b, ?_⟩
      cases b with
      | true =>
          dsimp only at h ⊢
          split at h
          · rw [← Access.frame.inj h, ptx_eq]
            rfl
          · exact nomatch h
      | false =>
          dsimp only at h ⊢
          split at h
          · exact nomatch h
          · rename_i hP
            rw [if_pos (not_not.1 hP)]
            split at h
            · rw [Access.frame.inj h]
            · exact nomatch h

/-- **The pages of an address space**: their frames are none of the page tables, no frame is mapped
twice, and the last page below `UTOP` is not mapped. -/
structure PagesApart (m : Mm) (d : ℕ) : Prop where
  aside : ∀ q f b, q / 1024 < pdx uTop → m.translate d q = some (f, b) → ¬ m.WalkFrame d f
  sole : ∀ q q' f b b', q / 1024 < pdx uTop → q' / 1024 < pdx uTop → m.translate d q = some (f, b) →
    m.translate d q' = some (f, b') → q = q'
  guard : m.translate d (pdx uTop * 1024 - 1) = none

theorem PagesApart.congr {m m' : Mm} {d : ℕ} (h : PagesApart m d)
    (hwalk : ∀ g, m'.WalkFrame d g ↔ m.WalkFrame d g)
    (hleaf : ∀ p, p / 1024 < pdx uTop → m'.translate d p = m.translate d p) : PagesApart m' d := by
  refine ⟨fun q f b hq hf hc => h.aside q f b hq (hleaf q hq ▸ hf) ((hwalk f).1 hc),
    fun q q' f b b' hq hq' hf hf' => h.sole q q' f b b' hq hq' (hleaf q hq ▸ hf)
      (hleaf q' hq' ▸ hf'), ?_⟩
  have hU := pdx_uTop
  rw [hleaf _ (by omega)]
  exact h.guard

/-- **What the kernel has written** to `n` addresses from `va` on: the page tables are untouched,
and so are the bytes that no address leads to. -/
structure Wrote (s s' : Vm) (d : ℕ) (va : BitVec 32) (src : ℕ → BitVec 8) (n : ℕ) : Prop where
  only : s' = { s with mm := { s.mm with mem := s'.mm.mem } }
  walk : ∀ g, s.mm.WalkFrame d g → s'.mm.mem g = s.mm.mem g
  low : va.toNat + n < uTop.toNat
  mapped : ∀ k < n, s.mm.translate d (vpn (va + BitVec.ofNat 32 k)) ≠ none
  hit : ∀ k < n, ∀ f b, s.mm.translate d (vpn (va + BitVec.ofNat 32 k)) = some (f, b) →
    s'.mm.mem f (pgoff (va + BitVec.ofNat 32 k)) = src k
  miss : ∀ g o, (∀ k < n, ∀ b, s.mm.translate d (vpn (va + BitVec.ofNat 32 k)) = some (g, b) →
      pgoff (va + BitVec.ofNat 32 k) ≠ o) → s'.mm.mem g o = s.mm.mem g o

theorem addr_toNat {va : BitVec 32} {k : ℕ} (h : va.toNat + k < uTop.toNat) :
    (va + BitVec.ofNat 32 k).toNat = va.toNat + k := by
  have hU : uTop.toNat = 4005560320 := rfl
  rw [BitVec.toNat_add, BitVec.toNat_ofNat]
  omega

/-- A byte of a frame is set. -/
theorem Vm.mem_setByte (s : Vm) (f o : ℕ) (b : BitVec 8) (g o' : ℕ) :
    (s.setByte f o b).mm.mem g o' = if g = f ∧ o' = o then b else s.mm.mem g o' := by
  change Function.update s.mm.mem f (Function.update (s.mm.mem f) o b) g o' = _
  by_cases hg : g = f
  · subst hg
    rw [Function.update_self]
    by_cases ho : o' = o
    · rw [if_pos ⟨rfl, ho⟩, ho, Function.update_self]
    · rw [if_neg fun hc => ho hc.2, Function.update_of_ne ho]
  · rw [if_neg fun hc => hg hc.1, Function.update_of_ne hg]

/-- **`memcpy` and `memset` at addresses of the environment.** -/
theorem kernelFill_wrote {s : Vm} {e d : ℕ} {va : BitVec 32} (hd : s.pgdir e = some d)
    (hp : PagesApart s.mm d) (hva : va.toNat < uTop.toNat) (src : ℕ → BitVec 8) (n : ℕ) :
    Ends (fun _ => ∃ k < n, ∀ f, mmu s e (va + BitVec.ofNat 32 k) false true ≠ .frame f)
      (fun s' => Wrote s s' d va src n)
      (kernelFill s e va src n) := by
  have hU : uTop.toNat = 4005560320 := rfl
  have hU' := pdx_uTop
  rw [kernelFill, List.range_eq_range']
  refine (ends_foldlM_range' (P := fun k s' => Wrote s s' d va src k) ?_ fun k hk s₁ h₁ => ?_).post
    fun _ h => h
  · exact ⟨rfl, fun _ _ => rfl, hva, fun k hk => absurd hk (Nat.not_lt_zero k), fun k hk =>
      absurd hk (Nat.not_lt_zero k),
      fun _ _ _ => rfl⟩
  rw [Nat.zero_add]
  have hd₁ : s₁.pgdir e = some d := by
    rw [h₁.only]
    exact hd
  unfold kernelStore
  rw [mmu_congr hd hd₁ h₁.walk]
  cases hacc : mmu s e (va + BitVec.ofNat 32 k) false true with
  | notPresent => exact ⟨k, hk, fun f hc => by cases hacc.symm.trans hc⟩
  | protection => exact ⟨k, hk, fun f hc => by cases hacc.symm.trans hc⟩
  | frame f =>
      have hk₁ := h₁.low
      have haddr : ∀ i ≤ k, vpn (va + BitVec.ofNat 32 i) = (va.toNat + i) / 4096 ∧
          pgoff (va + BitVec.ofNat 32 i) = (va.toNat + i) % 4096 := by
        intro i hi
        rw [vpn, pgoff_eq, addr_toNat (by omega)]
        exact ⟨rfl, rfl⟩
      have hlow : ∀ i ≤ k, vpn (va + BitVec.ofNat 32 i) / 1024 < pdx uTop := by
        intro i hi
        rw [(haddr i hi).1]
        omega
      obtain ⟨b, hb⟩ := translate_of_mmu hd hacc
      have hf := hp.aside _ f b (hlow k (Nat.le_refl k)) hb
      -- the last page below `UTOP` is not reached
      have hguard : va.toNat + (k + 1) < uTop.toNat := by
        by_contra hc
        have hlast : (va.toNat + k) / 4096 = pdx uTop * 1024 - 1 := by omega
        rw [(haddr k (Nat.le_refl k)).1, hlast, hp.guard] at hb
        cases hb
      have hmem := Vm.mem_setByte s₁ f (pgoff (va + BitVec.ofNat 32 k)) (src k)
      refine ⟨?_, fun g hg => ?_, hguard, fun k' hk' => ?_, fun k' hk' f' b' hb' => ?_,
        fun g o hno => ?_⟩
      · have honly := h₁.only
        rw [honly]
        rfl
      · funext o
        have hgf : g ≠ f := by
          rintro rfl
          exact hf hg
        rw [hmem, if_neg fun hc => hgf hc.1]
        exact congrFun (h₁.walk g hg) o
      · by_cases hkk : k' = k
        · rw [hkk, hb]
          exact fun hc => by cases hc
        · exact h₁.mapped k' (by omega)
      · rw [hmem]
        by_cases hkk : k' = k
        · subst hkk
          rw [hb] at hb'
          rw [(Prod.mk.inj (Option.some.inj hb')).1, if_pos ⟨rfl, rfl⟩]
        · have hother : ¬ (f' = f ∧ pgoff (va + BitVec.ofNat 32 k') = pgoff
              (va + BitVec.ofNat 32 k)) := by
            rintro ⟨rfl, ho⟩
            have hq := hp.sole _ _ f' b' b (hlow k' (by omega)) (hlow k (Nat.le_refl k)) hb' hb
            rw [(haddr k' (by omega)).1, (haddr k (Nat.le_refl k)).1] at hq
            rw [(haddr k' (by omega)).2, (haddr k (Nat.le_refl k)).2] at ho
            omega
          rw [if_neg hother]
          exact h₁.hit k' (by omega) f' b' hb'
      · rw [hmem, if_neg fun hc => ?_]
        · exact h₁.miss g o fun k' hk' b' hb' => hno k' (by omega) b' hb'
        · obtain ⟨rfl, ho⟩ := hc
          exact hno k (Nat.lt_succ_self k) b hb ho.symm

end Jos
