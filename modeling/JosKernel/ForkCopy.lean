/-
**What fork copies.**

`env_cpy_pgdir_cow` walks the areas of the parent in steps of 4 KB and copies to the child whatever
`pgdir_walk` finds, without the permission to write. It counts a reference to the frame in the
address bits of the word it has copied. This is right for an entry that is present. For one that is
not, 0 or the record of a slot in the swap area, the reference goes to some other frame; and for a 4
MB page `pgdir_walk` finds the entry of the directory, which becomes an entry of a page table in the
child.

Nothing is assumed here about the entries of the parent: only that its page tables are frames of
their own, and that the frames on the free list are not in use.

Main definitions:

* `Jos.Mm.translate` — the translation of a page;
* `Jos.ForkExact` — the child has what the parent has, and every frame is counted;
* `Jos.ForkFits` — the condition for it;
* `Jos.Forking` — the copy after some of the pages.

Main results:

* `Jos.Forking.copy`, `Jos.Forking.openTable` — the steps of the copy;
* `Jos.fork_exact_iff` — **fork is exact if and only if the condition holds**.
-/

import Mathlib.Data.Finset.Card
import JosKernel.SpaceFork

set_option relaxedAutoImplicit false
set_option autoImplicit false

namespace Jos

open LinkedList Outcome

/-! ### What a walk finds -/

/-- **The translation of the page `q`**: its frame, and whether it is part of a 4 MB page. -/
def Mm.translate (m : Mm) (d q : ℕ) : Option (ℕ × Bool) :=
  match m.leaf d q with
  | some (w, true) => some (pgnum w / 1024 * 1024 + q % 1024, true)
  | some (w, false) => if isPresent w then some (pgnum w, false) else none
  | none => none

theorem Mm.translate_congr {m m' : Mm} {d q : ℕ} (h : m'.leaf d q = m.leaf d q) :
    m'.translate d q = m.translate d q := by
  rw [Mm.translate, Mm.translate, h]

/-- The page `q` has a 4 KB entry with the frame `f` in its address bits, present or not. -/
def Mm.smallIs (m : Mm) (d f : ℕ) (present : Bool) (q : ℕ) : Bool :=
  match m.leaf d q with
  | some (w, false) => isPresent w == present && pgnum w == f
  | _ => false

/-- The entries of the directory `d` below `UTOP` that lead to the frame `f`. -/
def Mm.tablesOf (m : Mm) (d f : ℕ) : ℕ := ((Finset.range (pdx uTop)).filter fun i =>
    Maps (m.word d i) f).card

/-- **The number of entries below `UTOP` that lead to the frame `f`**, of the directory `d` and of
its page tables. -/
def Mm.entriesOf (m : Mm) (d f : ℕ) : ℕ :=
  m.tablesOf d f + ((Finset.range (pdx uTop * 1024)).filter
    fun q => m.smallIs d f true q = true).card

/-! ### The property and the condition -/

/-- **The child has exactly the pages of the parent**: the same translations, with the same size of
pages, no permission to write on either side, and a reference counted for every entry of the
child. -/
structure ForkExact (m m' : Mm) (dp dc : ℕ) (pages : List ℕ) : Prop where
  child : ∀ q ∈ pages, m'.translate dc q = m.translate dp q
  parent : ∀ q ∈ pages, m'.translate dp q = m.translate dp q
  readOnly : ∀ q ∈ pages, ∀ d, d = dp ∨ d = dc → ∀ w b, m'.leaf d q = some (w, b) →
    isPresent w = true →
    isWritable w = false
  ref : ∀ f < m.npages, (m'.pages f).ppRef.toNat = (m.pages f).ppRef.toNat + m'.entriesOf dc f

/-- **The condition**: none of the pages is part of a 4 MB page, the entries that are not present
would add a multiple of the range of `pp_ref` to the count of any frame, and no count leaves that
range. -/
structure ForkFits (m : Mm) (dp : ℕ) (pages : List ℕ) : Prop where
  small : ∀ q ∈ pages, ∀ w, m.leaf dp q ≠ some (w, true)
  absent : ∀ f < m.npages, 2 ^ 16 ∣ pages.countP (m.smallIs dp f false)
  room : ∀ f < m.npages, (m.pages f).ppRef.toNat + pages.countP (m.smallIs dp f true) < 2 ^ 16

/-- The parent and the child before the copy: the page tables of the parent are frames of their own,
the child has no page table, and the frames on the free list `l` are not in use. -/
structure ForkReady (m : Mm) (dp dc : ℕ) (l : List ℕ) : Prop where
  list : FreeList m l
  ne : dp ≠ dc
  dirs : dp ∉ l ∧ dc ∉ l
  empty : ∀ i < pdx uTop, m.word dc i = 0
  tables : ∀ i < pdx uTop, isPresent (m.word dp i) = true → isHuge (m.word dp i) = false →
    pgnum (m.word dp i) ≠ dp ∧ pgnum (m.word dp i) ≠ dc ∧ pgnum (m.word dp i) ∉ l
  apart : ∀ i < pdx uTop, ∀ j < pdx uTop, isPresent (m.word dp i) = true →
    isHuge (m.word dp i) = false →
    isPresent (m.word dp j) = true → isHuge (m.word dp j) = false →
    pgnum (m.word dp i) = pgnum (m.word dp j) → i = j
  idle : ∀ f ∈ l, (m.pages f).ppRef = 0 ∧ ∀ q, m.smallIs dp f true q = false

/-- An area in use: in pages, below `UTOP` and of one of the two types. -/
structure Vma.Forkable (v : Vma) : Prop where
  page : v.va.toNat % 4096 = 0 ∧ v.len.toNat % 4096 = 0
  low : v.va.toNat + v.len.toNat ≤ uTop.toNat
  forked : v.Forked

/-- The areas of the parent, apart from each other. -/
structure ForkAreas (sp : Space) (la : List ℕ) : Prop where
  chain : Chain sp.link sp.allocVmaList la
  area : ∀ i ∈ la, (sp.vmas i).Forkable
  apart : la.Pairwise fun i j => (sp.vmas i).Apart (sp.vmas j)

/-- The pages of an area. -/
def Vma.pages (v : Vma) : List ℕ := List.range' (vpn v.va) (v.len.toNat / 4096)

/-- **The pages of the areas of `la`**, in the order of the walk. -/
def forkPages (sp : Space) (la : List ℕ) : List ℕ := la.flatMap fun i => (sp.vmas i).pages

namespace Vma.Forkable

variable {v w : Vma} {q : ℕ}

theorem stop_toNat (h : v.Forkable) : (v.va + v.len).toNat = v.va.toNat + v.len.toNat := by
  have hlow := h.low
  have hU : uTop.toNat = 4005560320 := rfl
  rw [BitVec.toNat_add]
  omega

theorem stop_page (h : v.Forkable) : (v.va + v.len).toNat % 4096 = 0 := by
  have hpage := h.page
  rw [h.stop_toNat]
  omega

theorem stop_low (h : v.Forkable) : (v.va + v.len).toNat ≤ uTop.toNat := h.stop_toNat ▸ h.low

theorem pages_eq (h : v.Forkable) :
    v.pages = List.range' (vpn v.va) (vpn (v.va + v.len) - vpn v.va) := by
  have hpage := h.page
  rw [Vma.pages, show v.len.toNat / 4096 = vpn (v.va + v.len) - vpn
    v.va by rw [vpn, vpn, h.stop_toNat]; omega]

theorem mem_pages (h : v.Forkable) : q ∈ v.pages ↔ v.HasPage q := by
  rw [h.pages_eq, List.mem_range'_1, Vma.HasPage]
  omega

theorem hasPage_iff (h : v.Forkable) :
    v.HasPage q ↔ v.va.toNat ≤ q * 4096 ∧ q * 4096 < v.va.toNat + v.len.toNat := by
  have hpage := h.page
  rw [Vma.HasPage, vpn, vpn, h.stop_toNat]
  omega

theorem not_mem_pages (h : v.Forkable) (h' : w.Forkable) (ha : v.Apart w) (hq : q ∈ v.pages) :
    q ∉ w.pages := by
  rw [h.mem_pages, h.hasPage_iff] at hq
  rw [h'.mem_pages, h'.hasPage_iff]
  rcases ha with ha | ha
  · omega
  · omega

end Vma.Forkable

theorem ForkAreas.nodup {sp : Space} {la : List ℕ} (h : ForkAreas sp la) :
    (forkPages sp la).Nodup := by
  obtain ⟨-, harea, hapart⟩ := h
  induction la with
  | nil => exact List.nodup_nil
  | cons v rest ih =>
      obtain ⟨hfirst, hapart⟩ := List.pairwise_cons.1 hapart
      have hv := harea v List.mem_cons_self
      rw [forkPages, List.flatMap_cons]
      refine List.nodup_append'.2 ⟨List.nodup_range',
        ih (fun i hi => harea i (List.mem_cons_of_mem _ hi)) hapart, ?_⟩
      intro q hq hq'
      obtain ⟨i, hi, hqi⟩ := List.mem_flatMap.1 hq'
      exact hv.not_mem_pages (harea i (List.mem_cons_of_mem _ hi)) (hfirst i hi) hq hqi

/-! ### The copy after some of the pages -/

/-- **The copy after the pages of `vs`**: what has become of the memory `m₀`, with the free list
`l`. -/
structure Forking (m₀ m : Mm) (dp dc : ℕ) (l l' vs : List ℕ) : Prop where
  npages : m.npages = m₀.npages
  list : FreeList m l'
  sub : ∀ f ∈ l', f ∈ l
  low : ∀ q ∈ vs, q / 1024 < pdx uTop
  pdir : ∀ i < pdx uTop, m.word dp i = m₀.word dp i ∨
    isHuge (m₀.word dp i) = true ∧ m.word dp i = cowPte (m₀.word dp i)
  ptab : ∀ i < pdx uTop, m₀.HasTable dp i → ∀ j < 1024, m.word (pgnum (m₀.word dp i)) j =
    if i * 1024 + j ∈ vs then cowPte (m₀.word (pgnum (m₀.word dp i)) j)
      else m₀.word (pgnum (m₀.word dp i)) j
  cdir : ∀ i < pdx uTop, m.word dc i = 0 ∨
    ∃ t, m.word dc i = tablePde t ∧ t ∈ l ∧ t ∉ l' ∧ isPresent (m₀.word dp i) = true
  cinj : ∀ i < pdx uTop, ∀ j < pdx uTop, isPresent (m.word dc i) = true →
    m.word dc i = m.word dc j → i = j
  ctab : ∀ q ∈ vs, ∀ w b, m₀.leaf dp q = some (w, b) →
    ∃ t ∈ l, m.word dc (q / 1024) = tablePde t ∧ m.word t (q % 1024) = cowPte w
  crest : ∀ i < pdx uTop, ∀ t ∈ l, m.word dc i = tablePde t → ∀ j < 1024, i * 1024 + j ∉ vs →
    m.word t j = 0
  ref : ∀ f, (m.pages f).ppRef = (m₀.pages f).ppRef +
    BitVec.ofNat 16 (vs.countP (fun q => (m₀.leaf dp q).any fun p => pgnum p.1 == f) +
      m.tablesOf dc f)

/-- A result of 1 means that the pages of `vs` have been copied. -/
def ForkEnd (m₀ : Mm) (s : Vm) (dp dc : ℕ) (l vs : List ℕ) (r : Bool × Vm) : Prop :=
  r.1 = true → SameSpaces s r.2 ∧ ∃ l', Forking m₀ r.2.mm dp dc l l' vs

/-! ### Words and entries -/

theorem isHuge_cowPte (w : BitVec 32) : isHuge (cowPte w) = isHuge w := by
  rw [isHuge, cowPte_and (by decide), isHuge]

/-- A frame of the free list has a number that fits into an entry. -/
theorem ForkReady.lt_pow {m : Mm} {dp dc t : ℕ} {l : List ℕ} (h : ForkReady m dp dc l)
    (ht : t ∈ l) : t < 2 ^ 20 :=
  Nat.lt_of_lt_of_le (h.list.listed t ht).1 m.npages_le

/-- The place of a word of the parent is not in a frame that was free, nor in the directory of the
child. -/
theorem ForkReady.leafPtr_frame {m : Mm} {dp dc q : ℕ} {l : List ℕ} (h : ForkReady m dp dc l)
    {w : BitVec 32} {b : Bool} (hq : q / 1024 < pdx uTop) (hleaf : m.leaf dp q = some (w, b)) :
    (m.leafPtr dp q).frame ∉ l ∧ (m.leafPtr dp q).frame ≠ dc := by
  obtain ⟨hP, hH, -⟩ := Mm.leaf_eq_some hleaf
  unfold Mm.leafPtr
  cases b with
  | true =>
      rw [if_pos hH]
      exact ⟨h.dirs.1, h.ne⟩
  | false =>
      rw [if_neg (by rw [hH]; exact Bool.false_ne_true)]
      obtain ⟨-, hdc, hl⟩ := h.tables _ hq hP hH
      exact ⟨hl, hdc⟩

/-- An entry of the directory `d` that was 0 leads to the page table `t` now. -/
theorem tablesOf_newTable {m m' : Mm} {d i t : ℕ} (hi : i < pdx uTop)
    (hold : ∀ k < pdx uTop, k ≠ i → m'.word d k = m.word d k) (hzero : m.word d i = 0)
    (hself : m'.word d i = tablePde t) (ht : t < 2 ^ 20) (f : ℕ) :
    m'.tablesOf d f = m.tablesOf d f + if f = t then 1 else 0 := by
  have hmaps : Maps (tablePde t) f ↔ f = t := by
    rw [Maps, isPresent_tablePde, pgnum_tablePde ht]
    exact ⟨fun hc => hc.2.symm, fun hc => ⟨rfl, hc.symm⟩⟩
  have hupd := card_filter_of_ne (Finset.mem_range.2 hi) (fun k hk hki => ?_ :
    ∀ k ∈ Finset.range (pdx uTop), k ≠ i → (Maps (m'.word d k) f ↔ Maps (m.word d k) f))
  · rw [hzero, if_neg (not_maps_zero f), hself, Nat.add_zero] at hupd
    rw [Mm.tablesOf, Mm.tablesOf, hupd]
    exact congrArg _ (if_congr hmaps rfl rfl)
  · rw [hold k (Finset.mem_range.1 hk) hki]

/-- One more reference for one frame. -/
theorem ref_add_one (r : BitVec 16) (n k : ℕ) {P : Prop} [Decidable P] :
    r + BitVec.ofNat 16 (n + k) + (if P then 1 else 0) = r + BitVec.ofNat 16
      (n + (k + if P then 1 else 0)) := by
  rw [BitVec.add_assoc, ← Nat.add_assoc, BitVec.ofNat_add (n + k)]
  split <;> rfl

namespace Forking

variable {m₀ m m' : Mm} {dp dc q t : ℕ} {l l' vs : List ℕ}

/-- Before the copy. -/
theorem start (hr : ForkReady m₀ dp dc l) : Forking m₀ m₀ dp dc l l [] where
  npages := rfl
  list := hr.list
  sub _ hf := hf
  low q hq := (List.not_mem_nil hq).elim
  pdir _ _ := Or.inl rfl
  ptab _ _ _ _ _ := (if_neg List.not_mem_nil).symm
  cdir i hi := Or.inl (hr.empty i hi)
  cinj i hi j _ hP _ := by
    rw [hr.empty i hi] at hP
    exact absurd hP (by decide)
  ctab q hq := (List.not_mem_nil hq).elim
  crest i hi t _ ht := by
    rw [hr.empty i hi] at ht
    exact (tablePde_ne_zero t ht.symm).elim
  ref f := by
    have hzero : m₀.tablesOf dc f = 0 := by
      rw [Mm.tablesOf, Finset.card_eq_zero, Finset.filter_eq_empty_iff]
      intro i hi hmap
      rw [hr.empty i (Finset.mem_range.1 hi)] at hmap
      exact not_maps_zero f hmap
    rw [hzero]
    exact (BitVec.add_zero _).symm

/-- An entry of the child's directory leads to a frame that was free. -/
theorem table_of_ne_zero (h : Forking m₀ m dp dc l l' vs) {i : ℕ} (hi : i < pdx uTop)
    (hne : m.word dc i ≠ 0) :
    ∃ t, m.word dc i = tablePde t ∧ t ∈ l ∧ t ∉ l' ∧ isPresent (m₀.word dp i) = true :=
  (h.cdir i hi).resolve_left hne

/-- The frame of a page table of the child. -/
theorem mem_of_table (hr : ForkReady m₀ dp dc l) (h : Forking m₀ m dp dc l l' vs) {i : ℕ}
    (hi : i < pdx uTop) (ht : t < 2 ^ 20) (heq : m.word dc i = tablePde t) :
    t ∈ l ∧ t ∉ l' ∧ isPresent (m₀.word dp i) = true := by
  obtain ⟨u, hu, hul, hul', hP⟩ := h.table_of_ne_zero hi (heq ▸ tablePde_ne_zero t)
  obtain rfl := tablePde_inj ht (hr.lt_pow hul) (heq.symm.trans hu)
  exact ⟨hul, hul', hP⟩

/-- What the entries of the parent's directory tell is as before. -/
theorem dir_same (h : Forking m₀ m dp dc l l' vs) {i : ℕ} (hi : i < pdx uTop) :
    isPresent (m.word dp i) = isPresent (m₀.word dp i) ∧ isHuge (m.word dp i) =
      isHuge (m₀.word dp i) ∧
      pgnum (m.word dp i) = pgnum (m₀.word dp i) := by
  rcases h.pdir i hi with heq | ⟨-, heq⟩
  · rw [heq]
    exact ⟨rfl, rfl, rfl⟩
  · rw [heq]
    exact ⟨isPresent_cowPte _, isHuge_cowPte _, pgnum_cowPte _⟩

/-- **A page table for the child**: a frame `t` comes off the free list. -/
theorem openTable (hr : ForkReady m₀ dp dc l) (h : Forking m₀ m dp dc l l' vs) {i : ℕ}
    (hi : i < pdx uTop)
    (hP : isPresent (m₀.word dp i) = true) (hzero : m.word dc i = 0) (ht : t ∈ l')
    (hnp : m'.npages = m.npages)
    (hlist : FreeList m' (l'.erase t))
    (hword : ∀ g k, m'.word g k = if g = dc ∧ k = i then tablePde t else if g = t then 0
      else m.word g k)
    (href : ∀ f, (m'.pages f).ppRef = (m.pages f).ppRef + if f = t then 1 else 0) :
    Forking m₀ m' dp dc l (l'.erase t) vs := by
  have htl := h.sub t ht
  have hpow := hr.lt_pow htl
  have hnd : l'.Nodup := h.list.chain.nodup
  have hout : t ∉ l'.erase t := fun hmem => ((hnd.mem_erase_iff).1 hmem).1 rfl
  have hold : ∀ {g k}, g ≠ dc → g ≠ t → m'.word g k = m.word g k := by
    intro g k hdc ht
    rw [hword, if_neg fun hc => hdc hc.1, if_neg ht]
  have hdir : ∀ {k}, k ≠ i → m'.word dc k = m.word dc k := by
    intro k hk
    rw [hword, if_neg fun hc => hk hc.2, if_neg]
    rintro rfl
    exact hr.dirs.2 htl
  have hself : m'.word dc i = tablePde t := by rw [hword, if_pos ⟨rfl, rfl⟩]
  -- no entry of the child leads to `t` yet
  have hfresh : ∀ k < pdx uTop, m.word dc k ≠ tablePde t :=
    fun k hk heq => (h.mem_of_table hr hk hpow heq).2.1 ht
  have hpar : ∀ k, m'.word dp k = m.word dp k := by
    intro k
    refine hold hr.ne ?_
    rintro rfl
    exact hr.dirs.1 htl
  refine ⟨hnp.trans h.npages, hlist, fun f hf => h.sub f (List.mem_of_mem_erase hf), h.low,
    fun k hk => ?_,
    fun k hk hk' j hj => ?_, fun k hk => ?_, fun k hk j hj hPk heq => ?_, fun q hq w b hleaf => ?_,
    fun k hk u hu heq j hj hnot => ?_, fun f => ?_⟩
  · rw [hpar]
    exact h.pdir k hk
  · obtain ⟨-, hdc, hnl⟩ := hr.tables k hk hk'.1 hk'.2
    rw [hold hdc fun heq => hnl (heq ▸ htl)]
    exact h.ptab k hk hk' j hj
  · by_cases hki : k = i
    · subst hki
      exact Or.inr ⟨t, hself, htl, hout, hP⟩
    · rw [hdir hki]
      rcases h.cdir k hk with hz | ⟨u, hu, hul, hul', hPk⟩
      · exact Or.inl hz
      · exact Or.inr ⟨u, hu, hul, fun hmem => hul' (List.mem_of_mem_erase hmem), hPk⟩
  · by_cases hki : k = i
    · by_cases hji : j = i
      · rw [hki, hji]
      · rw [hki, hself, hdir hji] at heq
        exact (hfresh j hj heq.symm).elim
    · by_cases hji : j = i
      · rw [hji, hself, hdir hki] at heq
        exact (hfresh k hk heq).elim
      · rw [hdir hki] at hPk heq
        rw [hdir hji] at heq
        exact h.cinj k hk j hj hPk heq
  · obtain ⟨u, hul, hu, hval⟩ := h.ctab q hq w b hleaf
    have hqi : q / 1024 ≠ i := by
      intro hqi
      rw [hqi, hzero] at hu
      exact tablePde_ne_zero u hu.symm
    refine ⟨u, hul, (hdir hqi).trans hu, ?_⟩
    rw [hold, hval]
    · rintro rfl
      exact hr.dirs.2 hul
    · rintro rfl
      exact hfresh _ (h.low q hq) hu
  · by_cases hki : k = i
    · rw [hki, hself] at heq
      obtain rfl := tablePde_inj hpow (hr.lt_pow hu) heq
      rw [hword, if_neg, if_pos rfl]
      rintro ⟨rfl, -⟩
      exact hr.dirs.2 htl
    · rw [hdir hki] at heq
      rw [hold]
      · exact h.crest k hk u hu heq j hj hnot
      · rintro rfl
        exact hr.dirs.2 hu
      · rintro rfl
        exact hfresh k hk heq
  · have hcount := tablesOf_newTable hi (fun k _ hk => hdir hk) hzero hself hpow f
    rw [href, h.ref, hcount]
    exact ref_add_one _ _ _

/-- **The entry of one page is copied** to the page table `t` of the child. -/
theorem copy (hr : ForkReady m₀ dp dc l) (h : Forking m₀ m dp dc l l' vs) (hq : q / 1024 < pdx uTop)
    (hnew : q ∉ vs)
    {w : BitVec 32} {b : Bool} (hleaf : m₀.leaf dp q = some (w, b)) (ht : t ∈ l)
    (htable : m.word dc (q / 1024) = tablePde t)
    (hnp : m'.npages = m.npages) (hlist : FreeList m' l')
    (hword : ∀ g k, m'.word g k = if g = t ∧ k = q % 1024 then cowPte w
      else if g = (m₀.leafPtr dp q).frame ∧ k = (m₀.leafPtr dp q).idx then cowPte w else m.word g k)
    (href : ∀ f, (m'.pages f).ppRef = (m.pages f).ppRef + if f = pgnum w then 1 else 0) :
    Forking m₀ m' dp dc l l' (vs ++ [q]) := by
  obtain ⟨hP, hH, hw⟩ := Mm.leaf_eq_some hleaf
  obtain ⟨hptr, hptrdc⟩ := hr.leafPtr_frame hq hleaf
  have hj : q % 1024 < 1024 := Nat.mod_lt _ (by decide)
  have hsplit : q / 1024 * 1024 + q % 1024 = q := Nat.div_add_mod' q 1024
  have hmem : ∀ {p}, p ≠ q → (p ∈ vs ++ [q] ↔ p ∈ vs) := by
    intro p hp
    rw [List.mem_append, List.mem_singleton]
    exact or_iff_left hp
  have hchild : ∀ k, m'.word dc k = m.word dc k := by
    intro k
    rw [hword, if_neg, if_neg fun hc => hptrdc hc.1.symm]
    rintro ⟨rfl, -⟩
    exact hr.dirs.2 ht
  -- the words of the child's page tables
  have hctab : ∀ {u j}, u ∈ l → ¬ (u = t ∧ j = q % 1024) → m'.word u j = m.word u j := by
    intro u j hu hne
    rw [hword, if_neg hne, if_neg]
    rintro ⟨rfl, -⟩
    exact hptr hu
  have hunique : ∀ {k}, k < pdx uTop → m.word dc k = tablePde t → k = q / 1024 := by
    intro k hk heq
    refine h.cinj k hk _ hq ?_ (heq.trans htable.symm)
    rw [heq]
    exact isPresent_tablePde t
  refine ⟨hnp.trans h.npages, hlist, h.sub, fun p hp => ?_, fun k hk => ?_, fun k hk hk' j hj' =>
    ?_, fun k hk => ?_,
    fun k hk j hj hPk heq => ?_, fun p hp w' b' hleaf' => ?_, fun k hk u hu heq j hj' hnot => ?_,
    fun f => ?_⟩
  · rcases List.mem_append.1 hp with hp | hp
    · exact h.low p hp
    · rw [List.mem_singleton.1 hp]
      exact hq
  · rw [hword, if_neg (by rintro ⟨rfl, -⟩; exact hr.dirs.1 ht)]
    split
    · rename_i hc
      cases b with
      | true =>
          -- the entry is the one of the directory, for a 4 MB page
          rw [Mm.leafPtr_huge hH] at hc hw
          rw [hc.2, hw]
          exact Or.inr ⟨hH, rfl⟩
      | false =>
          rw [Mm.leafPtr_small hH] at hc
          exact ((hr.tables _ hq hP hH).1 hc.1.symm).elim
    · exact h.pdir k hk
  · obtain ⟨hTp, -, hTl⟩ := hr.tables k hk hk'.1 hk'.2
    rw [hword, if_neg (by rintro ⟨hTt, -⟩; exact hTl (hTt ▸ ht))]
    by_cases hkq : k * 1024 + j = q
    · have hkd : q / 1024 = k := by omega
      have hjm : q % 1024 = j := by omega
      rw [hkd, hk'.2] at hH
      subst hH
      have hsmall : isHuge (m₀.word dp (q / 1024)) = false := by rw [hkd]; exact hk'.2
      rw [Mm.leafPtr_small hsmall, hkd, hjm] at hw ⊢
      rw [if_pos ⟨rfl, rfl⟩, if_pos (by rw [hkq]; simp), hw]
    · rw [if_neg, h.ptab k hk hk' j hj']
      · exact if_congr (hmem hkq).symm rfl rfl
      · rintro ⟨hframe, hidx⟩
        cases b with
        | true =>
            rw [Mm.leafPtr_huge hH] at hframe
            exact hTp hframe
        | false =>
            rw [Mm.leafPtr_small hH] at hframe hidx
            have hkd := hr.apart k hk _ hq hk'.1 hk'.2 hP hH hframe
            change j = q % 1024 at hidx
            omega
  · rw [hchild]
    exact h.cdir k hk
  · rw [hchild] at hPk heq
    rw [hchild] at heq
    exact h.cinj k hk j hj hPk heq
  · by_cases hpq : p = q
    · subst hpq
      obtain ⟨rfl, rfl⟩ := Prod.mk.inj (Option.some.inj (hleaf.symm.trans hleaf'))
      exact ⟨t, ht, (hchild _).trans htable, by rw [hword, if_pos ⟨rfl, rfl⟩]⟩
    · have hp := (hmem hpq).1 hp
      obtain ⟨u, hul, hu, hval⟩ := h.ctab p hp w' b' hleaf'
      refine ⟨u, hul, (hchild _).trans hu, ?_⟩
      rw [hctab hul, hval]
      rintro ⟨rfl, hjj⟩
      have hii := hunique (h.low p hp) hu
      omega
  · rw [hchild] at heq
    have hkq : k * 1024 + j ≠ q := by
      rintro rfl
      exact hnot (List.mem_append_right _ (List.mem_singleton.2 rfl))
    rw [hctab hu]
    · exact h.crest k hk u hu heq j hj' fun hc => hnot ((hmem hkq).2 hc)
    · rintro ⟨rfl, rfl⟩
      have hii := hunique hk heq
      rw [hii] at hkq
      exact hkq hsplit
  · have htables : m'.tablesOf dc f = m.tablesOf dc f := by
      unfold Mm.tablesOf
      simp only [hchild]
    have hone : (m₀.leaf dp q).any (fun p => pgnum p.1 == f) = decide (f = pgnum w) := by
      rw [hleaf, Option.any_some]
      exact Bool.eq_iff_iff.2 (by rw [beq_iff_eq, decide_eq_true_iff]; exact eq_comm)
    rw [htables, href, h.ref, ref_add_one, List.countP_append, List.countP_singleton, hone]
    simp only [decide_eq_true_eq]
    rw [Nat.add_right_comm, Nat.add_assoc]

/-- A page without a page table in the parent is passed over. -/
theorem skip (h : Forking m₀ m dp dc l l' vs) (hq : q / 1024 < pdx uTop)
    (hleaf : m₀.leaf dp q = none) :
    Forking m₀ m dp dc l l' (vs ++ [q]) := by
  have hP := Mm.leaf_eq_none.1 hleaf
  have hmem : ∀ {k j}, isPresent (m₀.word dp k) = true → j < 1024 →
      (k * 1024 + j ∈ vs ++ [q] ↔ k * 1024 + j ∈ vs) := by
    intro k j hk hj
    rw [List.mem_append, List.mem_singleton]
    refine or_iff_left ?_
    rintro rfl
    rw [show (k * 1024 + j) / 1024 = k by omega, hk] at hP
    exact nomatch hP
  refine ⟨h.npages, h.list, h.sub, fun p hp => ?_, h.pdir, fun k hk hk' j hj => ?_, h.cdir, h.cinj,
    fun p hp w b hw => ?_,
    fun k hk u hu heq j hj hnot => ?_, fun f => ?_⟩
  · rcases List.mem_append.1 hp with hp | hp
    · exact h.low p hp
    · rw [List.mem_singleton.1 hp]
      exact hq
  · rw [h.ptab k hk hk' j hj]
    exact if_congr (hmem hk'.1 hj).symm rfl rfl
  · rcases List.mem_append.1 hp with hp | hp
    · exact h.ctab p hp w b hw
    · rw [List.mem_singleton.1 hp, hleaf] at hw
      exact nomatch hw
  · exact h.crest k hk u hu heq j hj fun hc => hnot (List.mem_append_left _ hc)
  · rw [h.ref, List.countP_append, List.countP_singleton, hleaf]
    rfl

/-- The place of an entry of the parent does not change. -/
theorem leafPtr_same (h : Forking m₀ m dp dc l l' vs) (hq : q / 1024 < pdx uTop) :
    m.leafPtr dp q = m₀.leafPtr dp q := by
  obtain ⟨-, hH, hpg⟩ := h.dir_same hq
  rw [Mm.leafPtr, Mm.leafPtr, hH, hpg]

/-- The word of a page that has not been copied yet, up to the permission to write. -/
theorem cow_word (h : Forking m₀ m dp dc l l' vs) (hq : q / 1024 < pdx uTop) (hnew : q ∉ vs)
    {w : BitVec 32} {b : Bool} (hleaf : m₀.leaf dp q = some (w, b)) :
    cowPte (m.word (m₀.leafPtr dp q).frame (m₀.leafPtr dp q).idx) = cowPte w := by
  obtain ⟨hP, hH, hw⟩ := Mm.leaf_eq_some hleaf
  cases b with
  | true =>
      rw [Mm.leafPtr_huge hH] at hw ⊢
      rw [hw]
      rcases h.pdir _ hq with heq | ⟨-, heq⟩
      · exact congrArg cowPte heq
      · exact (congrArg cowPte heq).trans (cowPte_cowPte _)
  | false =>
      rw [Mm.leafPtr_small hH] at hw ⊢
      have hj : q % 1024 < 1024 := Nat.mod_lt _ (by decide)
      have htab := h.ptab _ hq ⟨hP, hH⟩ _ hj
      rw [Nat.div_add_mod' q 1024, if_neg hnew] at htab
      rw [hw]
      exact congrArg cowPte htab

end Forking

/-! ### One page -/

theorem FreeList.setWord {m : Mm} {l : List ℕ} (h : FreeList m l) (f k : ℕ) (w : BitVec 32) :
    FreeList (m.setWord f k w) l :=
  h.congr rfl rfl rfl fun _ _ => rfl

theorem FreeList.setRef_vm {s : Vm} {l : List ℕ} (h : FreeList s.mm l) (pp : ℕ) (n : BitVec 16) :
    FreeList (s.setRef pp n).mm l :=
  h.congr rfl (@Mm.link_modPage s.mm pp (fun p => { p with ppRef := n }) fun _ => rfl) rfl
    fun g _ => s.flags_setRef pp g n

namespace Forking

variable {m₀ : Mm} {s : Vm} {dp dc child parent : ℕ} {l l' vs : List ℕ} {va : BitVec 32}

/-- `pgdir_walk` in the child finds a page table or makes one. -/
theorem walkChild (hr : ForkReady m₀ dp dc l) (h : Forking m₀ s.mm dp dc l l' vs) (hva : va < uTop)
    (hP : isPresent (m₀.word dp (vpn va / 1024)) = true) :
    Ends (fun _ => True)
      (fun r => r.1 = none ∨ ∃ t ∈ l, r.1 = some ⟨t, vpn va % 1024⟩ ∧ SameSpaces s r.2 ∧
        r.2.mm.word dc (vpn va / 1024) = tablePde t ∧ ∃ l'', Forking m₀ r.2.mm dp dc l l'' vs)
      (pgdirWalk s (some dc) va .normal) := by
  have hi : vpn va / 1024 < pdx uTop := pdx_eq va ▸ pdx_lt_of_lt hva
  rcases h.cdir _ hi with hzero | ⟨t, ht, htl, -, -⟩
  · have habs : ¬ isPresent (s.pte ⟨dc, pdx va⟩) = true := by
      rw [pdx_eq]
      change ¬ isPresent (s.mm.word dc (vpn va / 1024)) = true
      rw [hzero]
      decide
    unfold pgdirWalk
    dsimp only
    rw [if_neg habs, ends_bind]
    refine (pageAlloc_drawn h.list (by decide) (by decide)).post ?_
    rintro ⟨pg, m₁⟩ (heq | ⟨pp, hpp, hpg, htaken, hlist⟩)
    · obtain ⟨rfl, rfl⟩ := Prod.mk.inj heq
      exact Or.inl rfl
    · obtain rfl : pg = some pp := hpg
      have htaken : Taken s.mm m₁ allocZero pp := htaken
      have hlist : FreeList m₁ (l'.erase pp) := hlist
      have hppl := h.sub pp hpp
      have hpow := hr.lt_pow hppl
      dsimp only
      generalize hs₃ : (({ s with mm := m₁ } : Vm).writePte ⟨dc, pdx va⟩ va pp
        (page2pa pp ||| pteP ||| pteW ||| pteU)).setRef
        pp _ = s₃
      have hword : ∀ g k, s₃.mm.word g k =
          if g = dc ∧ k = vpn va / 1024 then tablePde pp else if g = pp then 0
            else s.mm.word g k := by
        intro g k
        have hset : s₃.mm.word g k = if g = dc ∧ k = pdx va then tablePde pp else m₁.word g k := by
          rw [← hs₃]
          exact @Vm.word_writePte { s with mm := m₁ } ⟨dc, pdx va⟩ va _ pp g k
        rw [hset, pdx_eq]
        refine if_congr Iff.rfl rfl ?_
        split
        · rename_i hg
          rw [hg]
          exact Mm.word_of_zero (htaken.zero (by decide)) k
        · rename_i hg
          exact Mm.word_of_mem (htaken.mem g hg) k
      have hself : s₃.mm.word dc (pdx va) = tablePde pp := by rw [hword, pdx_eq, if_pos ⟨rfl, rfl⟩]
      have hnp : s₃.mm.npages = s.mm.npages := by
        rw [← hs₃]
        exact htaken.npages
      have href : ∀ f, (s₃.mm.pages f).ppRef = (s.mm.pages f).ppRef + if f = pp then 1 else 0 := by
        intro f
        rw [← hs₃, Vm.ppRef_setRef]
        split
        · rename_i hf
          rw [hf]
          exact congrArg (· + 1) (htaken.ref pp)
        · exact (htaken.ref f).trans (BitVec.add_zero _).symm
      have hfree : FreeList s₃.mm (l'.erase pp) := by
        rw [← hs₃]
        exact (hlist.setWord _ _ _).setRef_vm pp _
      have hspaces : SameSpaces s s₃ := by
        rw [← hs₃]
        exact ⟨rfl, rfl, rfl, rfl⟩
      have hopen := h.openTable hr hi hP hzero hpp hnp hfree hword href
      have hlt : pp < s₃.mm.npages := hnp ▸ h.npages ▸ (hr.list.listed pp hppl).1
      have hwalk : walkEnd s₃ ⟨dc, pdx va⟩ va false = Except.ok ⟨pp, ptx va⟩ := by
        refine walkEnd_table ?_ ?_ hlt
        · rw [hself]
          exact ⟨isPresent_tablePde pp, pgnum_tablePde hpow⟩
        · rw [hself]
          exact isHuge_tablePde pp
      rw [hwalk]
      refine Or.inr ⟨pp, hppl, ?_, hspaces, ?_, l'.erase pp, hopen⟩
      · rw [ptx_eq]
      · rw [← pdx_eq]
        exact hself
  · have hnp : t < s.mm.npages := h.npages ▸ (hr.list.listed t htl).1
    rw [pgdirWalk_table (t := t), ends_ok]
    · exact Or.inr ⟨t, htl, by rw [ptx_eq], ⟨rfl, rfl, rfl, rfl⟩, ht, l', h⟩
    · rw [pdx_eq, ht]
      exact ⟨isPresent_tablePde t, pgnum_tablePde (hr.lt_pow htl)⟩
    · rw [pdx_eq, ht]
      exact isHuge_tablePde t
    · exact hnp

/-- **One page**: `env_cpy_pgdir_cow` fails, or the page has been copied. -/
theorem page (hr : ForkReady m₀ dp dc l) (h : Forking m₀ s.mm dp dc l l' vs)
    (hp : s.pgdir parent = some dp) (hc : s.pgdir child = some dc) (hva : va < uTop)
    (hnew : vpn va ∉ vs) :
    Ends (fun _ => True) (ForkEnd m₀ s dp dc l (vs ++ [vpn va]))
      (cpyPageCow s child parent va) := by
  have hi : vpn va / 1024 < pdx uTop := pdx_eq va ▸ pdx_lt_of_lt hva
  obtain ⟨hsameP, hsameH, -⟩ := h.dir_same hi
  unfold cpyPageCow
  rw [hp, ends_bind]
  refine (pgdirFind_leaf s dp va).post ?_
  rintro r (⟨rfl, hnone⟩ | ⟨rfl, hP⟩)
  · rw [Mm.leaf_eq_none, hsameP] at hnone
    exact fun _ => ⟨⟨rfl, rfl, rfl, rfl⟩, l', h.skip hi (Mm.leaf_eq_none.2 hnone)⟩
  · rw [hsameP] at hP
    obtain ⟨⟨w, b⟩, hleaf⟩ : ∃ p, m₀.leaf dp (vpn va) = some p := by
      rw [← Option.ne_none_iff_exists']
      exact fun hnone => absurd hP (by rw [Mm.leaf_eq_none.1 hnone]; exact Bool.false_ne_true)
    obtain ⟨hptrl, hptrdc⟩ := hr.leafPtr_frame hi hleaf
    rw [h.leafPtr_same hi]
    dsimp only
    rw [hc, ends_bind]
    refine (h.walkChild hr hva hP).post ?_
    rintro ⟨pteC, s₁⟩ (hnone | ⟨t, htl, hpte, hsp, htable, l₁, hfork⟩)
    · obtain rfl : pteC = none := hnone
      exact fun hc => (nomatch hc)
    · obtain rfl : pteC = some ⟨t, vpn va % 1024⟩ := hpte
      have hsp : SameSpaces s s₁ := hsp
      have hfork : Forking m₀ s₁.mm dp dc l l₁ vs := hfork
      have hcow := hfork.cow_word hi hnew hleaf
      generalize hptr : m₀.leafPtr dp (vpn va) = ptr at *
      obtain ⟨w₁, hw₁⟩ : ∃ w₁, s₁.mm.word ptr.frame ptr.idx = w₁ := ⟨_, rfl⟩
      rw [hw₁] at hcow
      obtain ⟨s₂, hs₂⟩ : ∃ s₂, s₂ = if isWritable w₁ then s₁.writePte ptr va (pgnum w₁) (cowPte w₁)
          else s₁ := ⟨_, rfl⟩
      have hword₂ : ∀ g k, s₂.mm.word g k = if g = ptr.frame ∧ k = ptr.idx then cowPte w
          else s₁.mm.word g k := by
        intro g k
        rw [hs₂]
        split
        · rw [← hcow]
          exact Vm.word_writePte ..
        · rename_i hW
          split
          · rename_i hgk
            rw [hgk.1, hgk.2, hw₁, ← hcow, cowPte_of_not_writable (Bool.eq_false_of_not_eq_true hW)]
          · rfl
      have hw₂ : s₂.mm.word ptr.frame ptr.idx = cowPte w := by rw [hword₂, if_pos ⟨rfl, rfl⟩]
      have hpages₂ : s₂.mm.pages = s₁.mm.pages ∧ s₂.mm.npages = s₁.mm.npages ∧ SameSpaces s₁ s₂ ∧
          FreeList s₂.mm l₁ := by
        rw [hs₂]
        split
        · exact ⟨rfl, rfl, ⟨rfl, rfl, rfl, rfl⟩, hfork.list.setWord _ _ _⟩
        · exact ⟨rfl, rfl, ⟨rfl, rfl, rfl, rfl⟩, hfork.list⟩
      obtain ⟨s₃, hs₃⟩ : ∃ s₃, s₃ = s₂.writePte ⟨t, vpn va % 1024⟩ va (pgnum (cowPte w))
          (cowPte w) := ⟨_, rfl⟩
      have hword₃ : ∀ g k, s₃.mm.word g k = if g = t ∧ k = vpn va % 1024 then cowPte w
          else if g = ptr.frame ∧ k = ptr.idx then cowPte w else s₁.mm.word g k := by
        intro g k
        rw [hs₃, Vm.word_writePte]
        exact if_congr Iff.rfl rfl (hword₂ g k)
      have hw₃ : s₃.mm.word ptr.frame ptr.idx = cowPte w := by
        rw [hword₃, if_neg, if_pos ⟨rfl, rfl⟩]
        rintro ⟨rfl, -⟩
        exact hptrl htl
      simp only [Vm.pte, hw₁]
      rw [← cowPte, ← hs₂, hw₂, ← hs₃, hw₃, ends_bind]
      refine (pa2page_ends _ _).post fun pg hpg => ?_
      rw [pgnum_pteAddr, pgnum_cowPte] at hpg
      intro _
      refine ⟨hsp.trans (hpages₂.2.2.1.trans (hs₃ ▸ ⟨rfl, rfl, rfl, rfl⟩)), l₁, ?_⟩
      refine hfork.copy hr hi hnew hleaf htl htable ?_ ?_ ?_ ?_
      · exact (congrArg (fun s : Vm => s.mm.npages) hs₃).trans hpages₂.2.1
      · rw [hs₃]
        exact (hpages₂.2.2.2.setWord _ _ _).setRef_vm pg _
      · intro g k
        rw [hptr]
        exact hword₃ g k
      · intro f
        have hpages : s₃.mm.pages = s₁.mm.pages :=
          (congrArg (fun s : Vm => s.mm.pages) hs₃).trans hpages₂.1
        rw [Vm.ppRef_setRef, Vm.ref, hpages, hpg]
        split
        · rename_i hf
          rw [hf]
        · exact (BitVec.add_zero _).symm

/-! ### The loops -/

/-- **The inner loop**, over the pages of one area. -/
theorem pagesOf (hr : ForkReady m₀ dp dc l) {stop : BitVec 32} (hstop : stop.toNat % 4096 = 0)
    (hU : stop.toNat ≤ uTop.toNat) :
    ∀ (fuel : ℕ) (va : BitVec 32) (s : Vm) (l' vs : List ℕ), Forking m₀ s.mm dp dc l l' vs →
      s.pgdir parent = some dp →
      s.pgdir child = some dc → va.toNat % 4096 = 0 → (∀ q, vpn va ≤ q → q < vpn stop → q ∉ vs) →
      Ends (fun _ => True) (ForkEnd m₀ s dp dc l (vs ++ List.range' (vpn va) (vpn stop - vpn va)))
        (cpyPagesCow child parent stop fuel va s) := by
  have hdone : ∀ (va : BitVec 32) (s : Vm) (l' vs : List ℕ), Forking m₀ s.mm dp dc l l' vs →
      ¬ va < stop →
      ForkEnd m₀ s dp dc l (vs ++ List.range' (vpn va) (vpn stop - vpn va)) (true, s) := by
    intro va s l' vs h hge _
    rw [BitVec.lt_def, not_lt] at hge
    have hle : vpn stop ≤ vpn va := Nat.div_le_div_right hge
    rw [Nat.sub_eq_zero_of_le hle, List.range'_zero, List.append_nil]
    exact ⟨⟨rfl, rfl, rfl, rfl⟩, l', h⟩
  intro fuel
  induction fuel with
  | zero =>
      intro va s l' vs h hp hc hva hnew
      rw [cpyPagesCow]
      exact ends_ite (fun _ => True.intro) fun hge => hdone va s l' vs h hge
  | succ fuel ih =>
      intro va s l' vs h hp hc hva hnew
      rw [cpyPagesCow]
      refine ends_ite (fun hlt => ?_) fun hge => hdone va s l' vs h hge
      obtain ⟨hnext, hle⟩ := next_page hva hstop hlt
      have hlt' : va < uTop := by
        rw [BitVec.lt_def] at hlt ⊢
        omega
      obtain ⟨hvlt, hvnext⟩ := vpn_next_page hva hstop hlt
      have hlist : vs ++ List.range' (vpn va) (vpn stop - vpn va) =
          (vs ++ [vpn va]) ++ List.range' (vpn va + 1) (vpn stop - (vpn va + 1)) := by
        rw [show vpn stop - vpn va = vpn stop - (vpn va + 1) + 1 by omega, List.range'_succ,
          List.append_assoc]
        rfl
      rw [ends_bind]
      refine (h.page hr hp hc hlt' (hnew _ le_rfl hvlt)).post ?_
      rintro ⟨ok, s₁⟩ hend
      cases ok with
      | false => exact fun hc => by cases hc
      | true =>
          obtain ⟨hsp, l₁, h₁⟩ := hend rfl
          have hp₁ : s₁.pgdir parent = some dp := by
            rw [Vm.pgdir, hsp.envs]
            exact hp
          have hc₁ : s₁.pgdir child = some dc := by
            rw [Vm.pgdir, hsp.envs]
            exact hc
          have hnew₁ : ∀ q, vpn (va + BitVec.ofNat 32 pgSize) ≤ q → q < vpn stop →
              q ∉ vs ++ [vpn va] := by
            intro q hq₁ hq₂ hmem
            rw [hvnext] at hq₁
            rcases List.mem_append.1 hmem with hmem | hmem
            · exact hnew q (by omega) hq₂ hmem
            · have hq := List.mem_singleton.1 hmem
              omega
          refine (ih (va + BitVec.ofNat 32 pgSize) s₁ l₁ _ h₁ hp₁ hc₁ (by omega) hnew₁).post
            fun r hr htrue => ?_
          obtain ⟨hsp', l₂, h₂⟩ := hr htrue
          rw [hvnext, ← hlist] at h₂
          exact ⟨hsp.trans hsp', l₂, h₂⟩

/-- **The outer loop**, over the areas of `rest`. -/
theorem areas (hr : ForkReady m₀ dp dc l) {sp : Space} :
    ∀ (fuel : ℕ) (rest : List ℕ) (cur : Option ℕ) (s : Vm)
    (l' vs : List ℕ), Forking m₀ s.mm dp dc l l' vs → s.pgdir parent = some dp →
      s.pgdir child = some dc →
    s.envs parent = sp → Chain sp.link cur rest → (∀ i ∈ rest, (sp.vmas i).Forkable) →
    rest.Pairwise (fun i j => (sp.vmas i).Apart (sp.vmas j)) → (∀ q ∈ forkPages sp rest, q ∉ vs) →
    Ends (fun _ => True) (ForkEnd m₀ s dp dc l (vs ++ forkPages sp rest))
      (cpyPgdirFrom child parent fuel cur s) := by
  have hdone : ∀ (s : Vm) (l' vs : List ℕ), Forking m₀ s.mm dp dc l l' vs →
      ForkEnd m₀ s dp dc l (vs ++ forkPages sp []) (true, s) := by
    intro s l' vs h _
    rw [forkPages, List.flatMap_nil, List.append_nil]
    exact ⟨⟨rfl, rfl, rfl, rfl⟩, l', h⟩
  intro fuel
  induction fuel with
  | zero =>
      intro rest cur s l' vs h hp hc hsp hchain hok hapart hnew
      cases cur with
      | none =>
          rw [chain_none] at hchain
          subst hchain
          exact hdone s l' vs h
      | some v => exact True.intro
  | succ fuel ih =>
      intro rest cur s l' vs h hp hc hsp hchain hok hapart hnew
      cases cur with
      | none =>
          rw [chain_none] at hchain
          subst hchain
          exact hdone s l' vs h
      | some v =>
          obtain ⟨rest, rfl, htail⟩ := chain_some.1 hchain
          obtain ⟨hfirst, hapart⟩ := List.pairwise_cons.1 hapart
          have hv := hok v List.mem_cons_self
          have hvma : s.vma parent v = sp.vmas v := by rw [Vm.vma, hsp]
          have hsplit : forkPages sp (v :: rest) = (sp.vmas v).pages ++ forkPages sp rest :=
            List.flatMap_cons
          have hbody := pagesOf hr hv.stop_page hv.stop_low nPages (sp.vmas v).va s l' vs h hp hc
            hv.page.1 fun q h₁ h₂ =>
            hnew q (by rw [hsplit]; exact List.mem_append_left _ (hv.mem_pages.2 ⟨h₁, h₂⟩))
          rw [← hv.pages_eq] at hbody
          have htype : (sp.vmas v).type = .anon ∨ (sp.vmas v).type = .binary := hv.forked
          rw [cpyPgdirFrom]
          dsimp only
          rw [hvma, if_pos htype, ends_bind]
          refine hbody.post ?_
          rintro ⟨ok, s₁⟩ hend
          cases ok with
          | false => exact fun hc => by cases hc
          | true =>
              obtain ⟨hsame, l₁, h₁⟩ := hend rfl
              have hp₁ : s₁.pgdir parent = some dp := by
                rw [Vm.pgdir, hsame.envs]
                exact hp
              have hc₁ : s₁.pgdir child = some dc := by
                rw [Vm.pgdir, hsame.envs]
                exact hc
              have hsp₁ : s₁.envs parent = sp := by
                rw [hsame.envs]
                exact hsp
              have hlink : (s₁.vma parent v).vmaLink = sp.link v := by
                rw [Vm.vma, hsp₁]
                rfl
              have hnew₁ : ∀ q ∈ forkPages sp rest, q ∉ vs ++ (sp.vmas v).pages := by
                intro q hq hmem
                rcases List.mem_append.1 hmem with hmem | hmem
                · exact hnew q (by rw [hsplit]; exact List.mem_append_right _ hq) hmem
                · obtain ⟨i, hi, hqi⟩ := List.mem_flatMap.1 hq
                  exact hv.not_mem_pages (hok i (List.mem_cons_of_mem _ hi)) (hfirst i hi) hmem hqi
              dsimp only
              rw [if_pos rfl, hlink]
              refine (ih rest (sp.link v) s₁ l₁ _ h₁ hp₁ hc₁ hsp₁ htail
                (fun i hi => hok i (List.mem_cons_of_mem _ hi))
                hapart hnew₁).post fun r hr htrue => ?_
              obtain ⟨hsame', l₂, h₂⟩ := hr htrue
              rw [List.append_assoc, ← hsplit] at h₂
              exact ⟨hsame.trans hsame', l₂, h₂⟩

end Forking

/-! ### The end of the copy -/

/-- A count in two parts. -/
theorem countP_split {α : Type} {p a b : α → Bool} : ∀ {vs : List α},
    (∀ q ∈ vs, (p q).toNat = (a q).toNat + (b q).toNat) → vs.countP p = vs.countP a + vs.countP b
  | [], _ => rfl
  | q :: vs, h => by
      have hrest := countP_split fun x hx => h x (List.mem_cons_of_mem _ hx)
      have hq := h q List.mem_cons_self
      rw [List.countP_cons, List.countP_cons, List.countP_cons, hrest]
      cases hp : p q <;> cases ha : a q <;> cases hb : b q <;> rw [hp, ha, hb] at hq <;>
        simp only [Bool.toNat_true, Bool.toNat_false] at hq <;> simp <;> omega

/-- The elements of a list without repetition, counted as those of a set of numbers. -/
theorem card_filter_eq_countP {N : ℕ} {P : ℕ → Prop} [DecidablePred P] {p : ℕ → Bool} {vs : List ℕ}
    (hnd : vs.Nodup) (h : ∀ q < N, P q ↔ q ∈ vs ∧ p q = true) (hlow : ∀ q ∈ vs, q < N) :
    ((Finset.range N).filter P).card = vs.countP p := by
  have heq : (Finset.range N).filter P = (vs.filter p).toFinset := by
    ext q
    rw [Finset.mem_filter, Finset.mem_range, List.mem_toFinset, List.mem_filter]
    constructor
    · rintro ⟨hq, hP⟩
      exact (h q hq).1 hP
    · rintro hq
      exact ⟨hlow q hq.1, (h q (hlow q hq.1)).2 hq⟩
  rw [heq, List.toFinset_card_of_nodup (hnd.filter p), List.countP_eq_length_filter]

namespace Forking

variable {m₀ m : Mm} {dp dc q : ℕ} {l l' vs : List ℕ}

/-- What a walk finds in the child for a page that has been copied. -/
theorem leaf_child (hr : ForkReady m₀ dp dc l) (h : Forking m₀ m dp dc l l' vs) (hq : q ∈ vs) :
    m.leaf dc q = (m₀.leaf dp q).map fun p => (cowPte p.1, false) := by
  have hi := h.low q hq
  cases hleaf : m₀.leaf dp q with
  | none =>
      rw [Option.map_none, Mm.leaf_eq_none]
      rw [Mm.leaf_eq_none] at hleaf
      rcases h.cdir _ hi with hz | ⟨t, -, -, -, hP⟩
      · rw [hz]
        decide
      · rw [hleaf] at hP
        exact nomatch hP
  | some p =>
      obtain ⟨w, b⟩ := p
      obtain ⟨t, htl, ht, hval⟩ := h.ctab q hq w b hleaf
      rw [Mm.leaf_of_table (hr.lt_pow htl) ht, hval]
      rfl

/-- The child has nothing outside the areas. -/
theorem smallIs_child_rest (hr : ForkReady m₀ dp dc l) (h : Forking m₀ m dp dc l l' vs)
    (hi : q / 1024 < pdx uTop) (hq : q ∉ vs) (f : ℕ) : m.smallIs dc f true q = false := by
  rcases h.cdir _ hi with hz | ⟨t, ht, htl, -, -⟩
  · have hnone : m.leaf dc q = none := by
      rw [Mm.leaf_eq_none, hz]
      decide
    rw [Mm.smallIs, hnone]
  · have hj : q % 1024 < 1024 := Nat.mod_lt _ (by decide)
    have hzero := h.crest _ hi t htl ht _ hj (by rw [Nat.div_add_mod' q 1024]; exact hq)
    rw [Mm.smallIs, Mm.leaf_of_table (hr.lt_pow htl) ht, hzero]
    rfl

/-- What a walk finds in the parent for a 4 KB page that has been copied. -/
theorem leaf_parent (h : Forking m₀ m dp dc l l' vs) (hq : q ∈ vs)
    (hsmall : ∀ w, m₀.leaf dp q ≠ some (w, true)) :
    m.leaf dp q = (m₀.leaf dp q).map fun p => (cowPte p.1, false) := by
  have hi := h.low q hq
  obtain ⟨hP, hH, hpg⟩ := h.dir_same hi
  cases hleaf : m₀.leaf dp q with
  | none =>
      rw [Mm.leaf_eq_none] at hleaf
      rw [Option.map_none, Mm.leaf_eq_none, hP, hleaf]
  | some p =>
      obtain ⟨w, b⟩ := p
      cases b with
      | true => exact (hsmall w hleaf).elim
      | false =>
          obtain ⟨hP₀, hH₀, hw⟩ := Mm.leaf_eq_some hleaf
          rw [Mm.leafPtr_small hH₀] at hw
          have hj : q % 1024 < 1024 := Nat.mod_lt _ (by decide)
          have htab := h.ptab _ hi ⟨hP₀, hH₀⟩ _ hj
          rw [Nat.div_add_mod' q 1024, if_pos hq, ← hw] at htab
          unfold Mm.leaf
          rw [hP, hH, hpg, if_pos hP₀, if_neg (by rw [hH₀]; exact Bool.false_ne_true), htab]
          rfl

/-- A frame has at most one entry in the directory of the child, and then it was free. -/
theorem tablesOf_le (hr : ForkReady m₀ dp dc l) (h : Forking m₀ m dp dc l l' vs) (f : ℕ) :
    m.tablesOf dc f = 0 ∨ m.tablesOf dc f = 1 ∧ f ∈ l := by
  have hmaps : ∀ i < pdx uTop, Maps (m.word dc i) f → m.word dc i = tablePde f ∧ f ∈ l := by
    intro i hi hm
    rcases h.cdir i hi with hz | ⟨t, ht, htl, -, -⟩
    · rw [hz] at hm
      exact (not_maps_zero f hm).elim
    · rw [ht] at hm
      obtain rfl : t = f := (pgnum_tablePde (hr.lt_pow htl)).symm.trans hm.2
      exact ⟨ht, htl⟩
  have hone : m.tablesOf dc f ≤ 1 := by
    rw [Mm.tablesOf, Finset.card_le_one]
    intro i hi j hj
    obtain ⟨hi, hmi⟩ := Finset.mem_filter.1 hi
    obtain ⟨hj, hmj⟩ := Finset.mem_filter.1 hj
    rw [Finset.mem_range] at hi hj
    exact h.cinj i hi j hj hmi.1 ((hmaps i hi hmi).1.trans (hmaps j hj hmj).1.symm)
  rcases Nat.eq_zero_or_pos (m.tablesOf dc f) with hz | hpos
  · exact Or.inl hz
  · obtain ⟨i, hi⟩ := Finset.card_pos.1 hpos
    obtain ⟨hi, hmi⟩ := Finset.mem_filter.1 hi
    exact Or.inr ⟨Nat.le_antisymm hone hpos, (hmaps i (Finset.mem_range.1 hi) hmi).2⟩

variable (hsmall : ∀ q ∈ vs, ∀ w, m₀.leaf dp q ≠ some (w, true))

include hsmall

/-- Without 4 MB pages, the entries of the child are those of the parent. -/
theorem smallIs_child (hr : ForkReady m₀ dp dc l) (h : Forking m₀ m dp dc l l' vs)
    (hq : q ∈ vs) (f : ℕ) :
    m.smallIs dc f true q = m₀.smallIs dp f true q := by
  rw [Mm.smallIs, h.leaf_child hr hq, Mm.smallIs]
  cases hleaf : m₀.leaf dp q with
  | none => rfl
  | some p =>
      obtain ⟨w, b⟩ := p
      cases b with
      | true => exact (hsmall q hq w hleaf).elim
      | false =>
          change (isPresent (cowPte w) == true && pgnum (cowPte w) == f) =
            (isPresent w == true && pgnum w == f)
          rw [isPresent_cowPte, pgnum_cowPte]

/-- **The entries of the child that lead to a frame.** -/
theorem entriesOf_child (hr : ForkReady m₀ dp dc l) (h : Forking m₀ m dp dc l l' vs)
    (hnd : vs.Nodup) (f : ℕ) :
    m.entriesOf dc f = m.tablesOf dc f + vs.countP (m₀.smallIs dp f true) := by
  have hlow : ∀ q ∈ vs, q < pdx uTop * 1024 := fun q hq => by
    have hi := h.low q hq
    omega
  rw [Mm.entriesOf, card_filter_eq_countP hnd (fun q hq => ?_) hlow]
  by_cases hmem : q ∈ vs
  · rw [h.smallIs_child hsmall hr hmem]
    exact (and_iff_right hmem).symm
  · rw [h.smallIs_child_rest hr (by omega) hmem]
    exact ⟨fun hc => (nomatch hc), fun hc => (hmem hc.1).elim⟩

/-- **The count of a frame after the copy.** -/
theorem ppRef_eq (h : Forking m₀ m dp dc l l' vs) (f : ℕ) :
    (m.pages f).ppRef.toNat = ((m₀.pages f).ppRef.toNat + (vs.countP (m₀.smallIs dp f true) +
      vs.countP (m₀.smallIs dp f false) + m.tablesOf dc f)) % 2 ^ 16 := by
  have hcount : vs.countP (fun q => (m₀.leaf dp q).any fun p => pgnum p.1 == f) =
      vs.countP (m₀.smallIs dp f true) + vs.countP (m₀.smallIs dp f false) := by
    refine countP_split fun q hq => ?_
    rw [Mm.smallIs, Mm.smallIs]
    cases hleaf : m₀.leaf dp q with
    | none => rfl
    | some p =>
        obtain ⟨w, b⟩ := p
        cases b with
        | true => exact (hsmall q hq w hleaf).elim
        | false =>
            change (pgnum w == f).toNat = (isPresent w == true && pgnum w == f).toNat +
              (isPresent w == false && pgnum w == f).toNat
            cases isPresent w <;> cases pgnum w == f <;> rfl
  rw [h.ref, hcount, BitVec.toNat_add, BitVec.toNat_ofNat, Nat.add_mod_mod]

omit hsmall

/-- **After the copy, fork is exact if and only if the condition holds.** -/
theorem exact_iff (hr : ForkReady m₀ dp dc l) (h : Forking m₀ m dp dc l l' vs) (hnd : vs.Nodup) :
    ForkExact m₀ m dp dc vs ↔ ForkFits m₀ dp vs := by
  constructor
  · intro he
    have hsmall : ∀ q ∈ vs, ∀ w, m₀.leaf dp q ≠ some (w, true) := by
      intro q hq w hw
      -- the child has a 4 KB entry where the parent has a 4 MB page
      have hchild := he.child q hq
      rw [Mm.translate, h.leaf_child hr hq, Mm.translate, hw] at hchild
      change (if isPresent (cowPte w) then some (pgnum (cowPte w), false) else none) =
        some (_, true) at hchild
      split at hchild
      · exact nomatch (Prod.mk.inj (Option.some.inj hchild)).2
      · exact nomatch hchild
    have hcount : ∀ f < m₀.npages, 2 ^ 16 ∣ vs.countP (m₀.smallIs dp f false) ∧
        (m₀.pages f).ppRef.toNat + vs.countP (m₀.smallIs dp f true) < 2 ^ 16 := by
      intro f hf
      have href := he.ref f hf
      rw [h.ppRef_eq hsmall, h.entriesOf_child hsmall hr hnd] at href
      have hlt := (m₀.pages f).ppRef.isLt
      omega
    exact ⟨hsmall, fun f hf => (hcount f hf).1, fun f hf => (hcount f hf).2⟩
  · rintro ⟨hsmall, habsent, hroom⟩
    have hsame : ∀ q ∈ vs, ∀ d, m.leaf d q = (m₀.leaf dp q).map (fun p => (cowPte p.1, false)) →
        m.translate d q = m₀.translate dp q ∧ ∀ w b, m.leaf d q = some (w, b) →
        isWritable w = false := by
      intro q hq d hd
      rw [Mm.translate, hd, Mm.translate]
      cases hleaf : m₀.leaf dp q with
      | none => exact ⟨rfl, fun w b hw => (nomatch hw)⟩
      | some p =>
          obtain ⟨w, b⟩ := p
          cases b with
          | true => exact (hsmall q hq w hleaf).elim
          | false =>
              refine ⟨?_, fun w' b' hw => ?_⟩
              · change (if isPresent (cowPte w) then some (pgnum (cowPte w), false) else none) =
                  if isPresent w then some (pgnum w, false) else none
                rw [isPresent_cowPte, pgnum_cowPte]
              · rw [← (Prod.mk.inj (Option.some.inj hw)).1]
                exact isWritable_cowPte w
    have hchild := fun q hq => hsame q hq dc (h.leaf_child hr hq)
    have hparent := fun q hq => hsame q hq dp (h.leaf_parent hq (hsmall q hq))
    refine ⟨fun q hq => (hchild q hq).1, fun q hq => (hparent q hq).1, fun q hq d hd w b hw _ => ?_,
      fun f hf => ?_⟩
    · rcases hd with rfl | rfl
      · exact (hparent q hq).2 w b hw
      · exact (hchild q hq).2 w b hw
    · obtain ⟨k, hk⟩ := habsent f hf
      have hlt := hroom f hf
      rw [h.ppRef_eq hsmall, h.entriesOf_child hsmall hr hnd, hk]
      rcases h.tablesOf_le hr f with hz | ⟨hone, hfl⟩
      · rw [hz]
        omega
      · -- the frame of a new page table had no count and no entry
        obtain ⟨hzero, hidle⟩ := hr.idle f hfl
        have hnone : vs.countP (m₀.smallIs dp f true) = 0 := by
          rw [List.countP_eq_zero]
          intro q _ hc
          rw [hidle q] at hc
          exact nomatch hc
        rw [hzero, hnone, hone]
        change (0 + (0 + 2 ^ 16 * k + 1)) % 2 ^ 16 = 0 + (1 + 0)
        omega

end Forking

/-- **`env_cpy_pgdir_cow` copies the pages of the areas**, if it returns 1. -/
theorem envCpyPgdirCow_copied {s s' : Vm} {child parent dp dc : ℕ} {la l : List ℕ}
    (hp : s.pgdir parent = some dp) (hc : s.pgdir child = some dc)
    (har : ForkAreas (s.envs parent) la) (hm : ForkReady s.mm dp dc l)
    (hrun : envCpyPgdirCow s child parent = .ok (true, s')) :
    ∃ l', Forking s.mm s'.mm dp dc l l' (forkPages (s.envs parent) la) := by
  have hend := Forking.areas hm nVma la (s.envs parent).allocVmaList s l [] (Forking.start hm) hp hc
    rfl har.chain har.area
    har.apart fun q _ => List.not_mem_nil
  obtain ⟨-, l', h⟩ := hend.of_ok hrun rfl
  exact ⟨l', h⟩

/-- **Fork copies the address space exactly if and only if** there is no 4 MB page in the areas, the
entries that are not present add nothing to a count and no count leaves its range. -/
theorem fork_exact_iff (s s' : Vm) (child parent dp dc : ℕ) (la l : List ℕ)
    (hp : s.pgdir parent = some dp) (hc : s.pgdir child = some dc)
    (har : ForkAreas (s.envs parent) la) (hm : ForkReady s.mm dp dc l)
    (hrun : envCpyPgdirCow s child parent = .ok (true, s')) :
    ForkExact s.mm s'.mm dp dc (forkPages (s.envs parent) la) ↔
      ForkFits s.mm dp (forkPages (s.envs parent) la) := by
  obtain ⟨l', h⟩ := envCpyPgdirCow_copied hp hc har hm hrun
  exact h.exact_iff hm har.nodup

/-! ### A parent with one page -/

/-- The words of the parent: its directory is frame 1, its page table frame 3, and the page at
`0x1000` is in frame 4. The directory of the child is frame 2. -/
def parentWord (f i : ℕ) : BitVec 32 :=
  if f = 1 ∧ i = 0 then 0x3007 else if f = 3 ∧ i = 1 then 0x4007 else 0

/-- A parent with one area of `len` bytes at `0x1000`, and one free frame. -/
def forkVm (len : BitVec 32) : Vm :=
  let s := Vm.ofWords 6 frames_six parentWord fun e =>
    { Space.ofDir (e + 1) with
      vmas := fun _ => ⟨.anon, 0x1000, len, pteW ||| pteU, none, 0, 0, 0, false⟩,
      allocVmaList := some 0 }
  { s with mm := { s.mm with
      premappedFlag := false, pageFreeList := some 5, freePagesCount := 1
      pages := fun f => if f = 5 then .zero else ⟨none, none, 1, alloc⟩ } }

theorem forkVm_word (len : BitVec 32) (f i : ℕ) : (forkVm len).mm.word f i = parentWord f i :=
  Mm.word_bytesOf (w := parentWord) rfl i

theorem parentWord_dir {i : ℕ} (h : isPresent (parentWord 1 i) = true) :
    i = 0 ∧ parentWord 1 i = 0x3007 := by
  by_cases hi : i = 0
  · rw [hi]
    exact ⟨rfl, rfl⟩
  · have hzero : parentWord 1 i = 0 := by
      rw [parentWord, if_neg fun hc => hi hc.2]
      rfl
    rw [hzero] at h
    exact absurd h (by decide)

theorem forkVm_ready (len : BitVec 32) : ForkReady (forkVm len).mm 1 2 [5] where
  list := {
    chain := by
      rw [chain_cons]
      exact ⟨rfl, rfl⟩
    listed := by
      intro i hi
      rw [List.mem_singleton.1 hi]
      exact ⟨(by decide : 5 < 6), rfl⟩
    off := by
      intro i hi
      have hne : i ≠ 5 := fun hc => hi (List.mem_singleton.2 hc)
      change (if i = 5 then PageInfo.zero else ⟨none, none, 1, alloc⟩).ppLink = none
      rw [if_neg hne] }
  ne := by decide
  dirs := by decide
  empty i _ := by
    rw [forkVm_word]
    rfl
  tables i _ hP _ := by
    rw [forkVm_word] at hP ⊢
    rw [(parentWord_dir hP).2]
    decide
  apart i _ j _ hP _ hP' _ _ := by
    rw [forkVm_word] at hP hP'
    rw [(parentWord_dir hP).1, (parentWord_dir hP').1]
  idle f hf := by
    rw [List.mem_singleton.1 hf]
    refine ⟨rfl, fun q => ?_⟩
    cases hP : isPresent (parentWord 1 (q / 1024)) with
    | false =>
        rw [Mm.smallIs, Mm.leaf_eq_none.2 ((congrArg isPresent (forkVm_word len 1 _)).trans hP)]
    | true =>
        have hleaf : (forkVm len).mm.leaf 1 q = some (parentWord 3 (q % 1024), false) := by
          have htable := (forkVm_word len 1 (q / 1024)).trans (parentWord_dir hP).2
          rw [← forkVm_word len]
          exact Mm.leaf_of_table (t := 3) (by decide) (htable.trans (by decide))
        rw [Mm.smallIs, hleaf]
        change (isPresent (parentWord 3 (q % 1024)) == true && pgnum
          (parentWord 3 (q % 1024)) == 5) = false
        by_cases hq : q % 1024 = 1
        · rw [hq]
          decide
        · have hzero : parentWord 3 (q % 1024) = 0 := by
            rw [parentWord, if_neg (by omega), if_neg (by omega)]
          rw [hzero]
          decide

theorem forkVm_areas {len : BitVec 32} (hlen : len.toNat % 4096 = 0)
    (hlow : 0x1000 + len.toNat ≤ uTop.toNat) :
    ForkAreas ((forkVm len).envs 0) [0] where
  chain := by
    rw [chain_cons]
    exact ⟨rfl, rfl⟩
  area i _ := ⟨⟨(by decide : (0x1000#32).toNat % 4096 = 0), hlen⟩, hlow, Or.inl rfl⟩
  apart := List.pairwise_singleton _ _

/-- A run of `env_cpy_pgdir_cow` that returns 1. -/
def copies (s : Vm) (child parent : ℕ) : Bool :=
  match envCpyPgdirCow s child parent with
  | .ok (true, _) => true
  | _ => false

theorem copies_iff {s : Vm} {child parent : ℕ} :
    copies s child parent = true ↔ ∃ s', envCpyPgdirCow s child parent = .ok (true, s') := by
  unfold copies
  split
  · rename_i s' hs
    exact ⟨fun _ => ⟨s', hs⟩, fun _ => rfl⟩
  · rename_i hne
    exact ⟨fun hc => (nomatch hc), fun ⟨s', hs⟩ => (hne s' hs).elim⟩

theorem forkVm_copies : copies (forkVm 0x1000) 1 0 = true ∧ copies (forkVm 0x2000) 1 0 = true := by
  decide +kernel

theorem fork_exact_iff_one : ∃ s', envCpyPgdirCow (forkVm 0x1000) 1 0 = .ok (true, s') ∧
    (ForkExact (forkVm 0x1000).mm s'.mm 1 2 (forkPages ((forkVm 0x1000).envs 0) [0]) ↔
      ForkFits (forkVm 0x1000).mm 1 (forkPages ((forkVm 0x1000).envs 0) [0])) := by
  obtain ⟨s', hrun⟩ := copies_iff.1 forkVm_copies.1
  exact ⟨s', hrun, fork_exact_iff (forkVm 0x1000) s' 1 0 1 2 [0] [5] rfl rfl
    (forkVm_areas (by decide) (by decide))
    (forkVm_ready _) hrun⟩

/-- **The second page of the area has never been touched**: its entry is 0, and frame 0 gets a
reference. -/
theorem fork_counts_absent_page :
    ¬ ∀ (s s' : Vm) (child parent dp dc : ℕ) (la l : List ℕ), s.pgdir parent = some dp →
      s.pgdir child = some dc →
      ForkAreas (s.envs parent) la → ForkReady s.mm dp dc l →
      envCpyPgdirCow s child parent = .ok (true, s') →
        ForkExact s.mm s'.mm dp dc (forkPages (s.envs parent) la) := by
  intro hall
  obtain ⟨s', hrun⟩ := copies_iff.1 forkVm_copies.2
  have har : ForkAreas ((forkVm 0x2000).envs 0) [0] := forkVm_areas (by decide) (by decide)
  have hexact := hall _ s' 1 0 1 2 [0] [5] rfl rfl har (forkVm_ready _) hrun
  obtain ⟨l', h⟩ := envCpyPgdirCow_copied rfl rfl har (forkVm_ready _) hrun
  have hfits := (h.exact_iff (forkVm_ready _) har.nodup).1 hexact
  have hcount : (forkPages ((forkVm 0x2000).envs 0) [0]).countP
      ((forkVm 0x2000).mm.smallIs 1 0 false) = 1 := by
    decide +kernel
  exact absurd (hcount ▸ hfits.absent 0 (by decide)) (by decide)

end Jos
