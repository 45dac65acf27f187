/-
**What the page tables hold.**

Directories, page tables and the pages of programs share one physical memory, so that what a walk of
the page tables finds depends on nothing else having been written over them. The invariant of this
module is about a set `D` of directories that have 4 KB mappings below `UTOP`: their page tables are
frames of their own, and the reference count of every other frame is the number of entries that map
it. `K` is a set of frames that the kernel keeps for itself, the page tables above `UTOP` among
them, which are shared and not counted. A directory may also be its own page table there, for the
window at `UVPT`.

Main definitions:

* `Jos.Mm.entry` — the page table entry of a virtual page;
* `Jos.Mm.mappings` — the number of entries that map a frame;
* `Jos.Mm.Table`, `Jos.Mm.Plain` — the page tables, and the frames that are something else;
* `Jos.PtInv` — **the invariant**.

Main results:

* `Jos.PtInv.same`, `Jos.PtInv.newTable`, `Jos.PtInv.edit` — the steps the kernel's functions are
  made of keep it: a change that the tables do not see, a new page table, a new value of one entry.
-/

import Mathlib.Data.Finset.Card
import Mathlib.Data.Finset.Prod
import JosKernel.FrameUse

set_option relaxedAutoImplicit false
set_option autoImplicit false

namespace Jos

open Outcome

/-! ### Addresses -/

/-- The number of the virtual page of an address. -/
def vpn (va : BitVec 32) : ℕ := va.toNat / 4096

theorem vpn_lt (va : BitVec 32) : vpn va < 2 ^ 20 := by
  have := va.isLt
  unfold vpn
  omega

theorem pgnum_eq (w : BitVec 32) : pgnum w = w.toNat / 4096 := by
  simp [pgnum, pgShift, Nat.shiftRight_eq_div_pow]

theorem pgnum_lt (w : BitVec 32) : pgnum w < 2 ^ 20 := by
  rw [pgnum_eq]
  exact vpn_lt w

theorem pdx_eq (va : BitVec 32) : pdx va = vpn va / 1024 := by
  have h := va.isLt
  have hmask : ∀ n : ℕ, n &&& 1023 = n % 1024 := fun n => Nat.and_two_pow_sub_one_eq_mod n 10
  simp only [pdx, pdxShift, vpn, BitVec.toNat_and, BitVec.toNat_ushiftRight,
    Nat.shiftRight_eq_div_pow]
  change _ &&& 1023 = _
  rw [hmask]
  omega

theorem ptx_eq (va : BitVec 32) : ptx va = vpn va % 1024 := by
  have hmask : ∀ n : ℕ, n &&& 1023 = n % 1024 := fun n => Nat.and_two_pow_sub_one_eq_mod n 10
  simp only [ptx, pgShift, vpn, BitVec.toNat_and, BitVec.toNat_ushiftRight,
    Nat.shiftRight_eq_div_pow]
  change _ &&& 1023 = _
  rw [hmask]

theorem ptx_lt (va : BitVec 32) : ptx va < 1024 := by
  rw [ptx_eq]
  exact Nat.mod_lt _ (by decide)

theorem pgoff_eq (va : BitVec 32) : pgoff va = va.toNat % 4096 := by
  have h : (0xFFF#32).toNat = 2 ^ 12 - 1 := rfl
  rw [pgoff, BitVec.toNat_and, h, Nat.and_two_pow_sub_one_eq_mod]

theorem pdx_uTop : pdx uTop = 955 := by decide

theorem pdx_lt_of_lt {va : BitVec 32} (h : va < uTop) : pdx va < pdx uTop := by
  have h' : va.toNat < 4005560320 := by simpa [BitVec.lt_def, uTop] using h
  rw [pdx_uTop, pdx_eq, vpn]
  omega

/-! ### The bits of an entry -/

theorem page2pa_toNat {f : ℕ} (hf : f < 2 ^ 20) : (page2pa f).toNat = f * 4096 := by
  simp only [page2pa, pgShift, BitVec.toNat_shiftLeft, BitVec.toNat_ofNat, Nat.shiftLeft_eq]
  omega

theorem page2pa_or_toNat {f : ℕ} (hf : f < 2 ^ 20) {g : BitVec 32} (hg : g.toNat < 4096) :
    (page2pa f ||| g).toNat = f * 4096 + g.toNat := by
  have hor := Nat.shiftLeft_add_eq_or_of_lt (i := 12) hg f
  rw [BitVec.toNat_or, page2pa_toNat hf]
  rw [Nat.shiftLeft_eq] at hor
  exact hor.symm

theorem pgnum_page2pa_or {f : ℕ} (hf : f < 2 ^ 20) {g : BitVec 32} (hg : g.toNat < 4096) :
    pgnum (page2pa f ||| g) = f := by
  rw [pgnum_eq, page2pa_or_toNat hf hg]
  omega

/-- Setting the bits of `a` does not touch the others. -/
theorem or_flag_and {w a m : BitVec 32} (h : a &&& m = 0) : (w ||| a) &&& m = w &&& m := by
  rw [BitVec.and_or_distrib_right, h]
  exact BitVec.or_zero

/-- The flags of an entry are those that were or'ed into it. -/
theorem page2pa_or_and (f : ℕ) (g : BitVec 32) {m : BitVec 32} (hm : m.toNat < 4096) :
    (page2pa f ||| g) &&& m = g &&& m := by
  ext k hk
  simp only [BitVec.getElem_and, BitVec.getElem_or, page2pa, pgShift, BitVec.getElem_shiftLeft]
  by_cases hlow : k < 12
  · simp [hlow]
  · have hbit : m[k] = false := by
      rw [← BitVec.getLsbD_eq_getElem hk, BitVec.getLsbD]
      refine Nat.testBit_lt_two_pow (Nat.lt_of_lt_of_le hm ?_)
      have := Nat.pow_le_pow_right (by decide : 0 < 2) (Nat.le_of_not_lt hlow)
      simpa using this
    simp [hbit]

theorem pteAddr_eq_shift (w : BitVec 32) : pteAddr w = w >>> 12 <<< 12 := by
  have hmask : ∀ k : Fin 32, (0xFFF#32).getLsbD k = decide (k.val < 12) := by decide
  ext k hk
  have hk' := hmask ⟨k, hk⟩
  rw [BitVec.getLsbD_eq_getElem hk] at hk'
  simp only [pteAddr, BitVec.getElem_and, BitVec.getElem_not, BitVec.getElem_shiftLeft,
    BitVec.getElem_ushiftRight, hk']
  by_cases hlow : k < 12
  · simp [hlow]
  · have hsum : 12 + (k - 12) = k := by omega
    simp [hlow, hsum, BitVec.getLsbD_eq_getElem hk]

theorem pteAddr_toNat (w : BitVec 32) : (pteAddr w).toNat = pgnum w * 4096 := by
  have := w.isLt
  rw [pteAddr_eq_shift, BitVec.toNat_shiftLeft, BitVec.toNat_ushiftRight, pgnum_eq,
    Nat.shiftRight_eq_div_pow, Nat.shiftLeft_eq]
  omega

theorem pgnum_pteAddr (w : BitVec 32) : pgnum (pteAddr w) = pgnum w := by
  rw [pgnum_eq (pteAddr w), pteAddr_toNat]
  omega

theorem pteAddr_eq_page2pa_iff {w : BitVec 32} {f : ℕ} (hf : f < 2 ^ 20) :
    pteAddr w = page2pa f ↔ pgnum w = f := by
  rw [← BitVec.toNat_inj, pteAddr_toNat, page2pa_toNat hf]
  omega

/-- The value of an entry of a directory that leads to the page table in the frame `t`. -/
def tablePde (t : ℕ) : BitVec 32 := page2pa t ||| pteP ||| pteW ||| pteU

theorem tablePde_eq (t : ℕ) : tablePde t = page2pa t ||| 7#32 := by
  unfold tablePde
  rw [BitVec.or_assoc, BitVec.or_assoc]
  rfl

theorem pgnum_tablePde {t : ℕ} (ht : t < 2 ^ 20) : pgnum (tablePde t) = t := by
  rw [tablePde_eq]
  exact pgnum_page2pa_or ht (by decide)

theorem tablePde_and (t : ℕ) {m : BitVec 32} (hm : m.toNat < 4096) :
    tablePde t &&& m = 7#32 &&& m := by
  rw [tablePde_eq, page2pa_or_and t _ hm]

theorem isPresent_tablePde (t : ℕ) : isPresent (tablePde t) = true := by
  rw [isPresent, tablePde_and t (by decide)]
  decide

theorem isHuge_tablePde (t : ℕ) : isHuge (tablePde t) = false := by
  rw [isHuge, tablePde_and t (by decide)]
  decide

/-- The flags of an entry that is inserted are those of the request. -/
theorem copyPte_and (pgn : ℕ) (perm : BitVec 32) {m : BitVec 32} (hm : m.toNat < 4096)
    (hP : pteP &&& m = 0) :
    (page2pa pgn ||| perm ||| pteP) &&& m = perm &&& m := by
  rw [BitVec.or_assoc, page2pa_or_and _ _ hm, BitVec.and_or_distrib_right, hP]
  exact BitVec.or_zero

theorem isPresent_or_pteP (w : BitVec 32) : isPresent (w ||| pteP) = true := by
  have h : (w ||| pteP) &&& pteP = pteP := by
    ext k hk
    simp only [BitVec.getElem_and, BitVec.getElem_or]
    cases pteP[k] <;> simp
  rw [isPresent, h]
  decide

theorem Mm.word_of_mem {m m' : Mm} {f : ℕ} (h : m'.mem f = m.mem f) (i : ℕ) :
    m'.word f i = m.word f i := by
  rw [Mm.word, Mm.word, h]

theorem Mm.word_of_zero {m : Mm} {f : ℕ} (h : m.mem f = fun _ => 0) (i : ℕ) : m.word f i = 0 := by
  rw [Mm.word, h]
  change (0#8 ++ 0#8 ++ 0#8 ++ 0#8 : BitVec 32) = 0
  decide

/-! ### What a write changes -/

section Write

variable (s : Vm) (p : PtePtr) (va w : BitVec 32) (f pp g k : ℕ) (n : BitVec 16)

theorem Vm.word_writePte :
    (s.writePte p va f w).mm.word g k = if g = p.frame ∧ k = p.idx then w else s.mm.word g k :=
  Mm.word_setWord ..

theorem Vm.word_setPte :
    (s.setPte p w).mm.word g k = if g = p.frame ∧ k = p.idx then w else s.mm.word g k :=
  Mm.word_setWord ..

theorem Vm.ppRef_setRef :
    ((s.setRef pp n).mm.pages g).ppRef = if g = pp then n else (s.mm.pages g).ppRef := by
  by_cases hg : g = pp
  · subst hg
    rw [if_pos rfl, Vm.setRef, Mm.modPage_self]
  · rw [if_neg hg, Vm.setRef, Mm.modPage_of_ne _ _ hg]

theorem Vm.flags_setRef : ((s.setRef pp n).mm.pages g).pageFlags = (s.mm.pages g).pageFlags := by
  by_cases hg : g = pp
  · subst hg
    rw [Vm.setRef, Mm.modPage_self]
  · rw [Vm.setRef, Mm.modPage_of_ne _ _ hg]

theorem Vm.lruLink_setRef : (s.setRef pp n).mm.lruLink = s.mm.lruLink := by
  funext g
  by_cases hg : g = pp
  · subst hg
    rw [Mm.lruLink, Vm.setRef, Mm.modPage_self]
    rfl
  · rw [Mm.lruLink, Vm.setRef, Mm.modPage_of_ne _ _ hg]
    rfl

variable {s pp}

theorem FreeInv.setRef_vm {l : List ℕ} (h : FreeInv s.mm l) (hpp : pp ∉ l) :
    FreeInv (s.setRef pp n).mm l :=
  h.setRef hpp n

theorem FreeInv.setMem {m : Mm} {l : List ℕ} (h : FreeInv m l) (M : ℕ → ℕ → BitVec 8) :
    FreeInv { m with mem := M } l :=
  h.congr rfl rfl rfl fun _ _ => ⟨rfl, rfl⟩

theorem FreeInv.setWord {m : Mm} {l : List ℕ} (h : FreeInv m l) : FreeInv (m.setWord f k w) l :=
  h.setMem _

theorem Steady.setRef {l : List ℕ} (h : Steady s.mm l) : Steady (s.setRef pp n).mm l :=
  ⟨h.1, h.2.1, h.2.2.congr rfl rfl (Vm.lruLink_setRef s pp n)⟩

theorem Steady.setMem {m : Mm} {l : List ℕ} (h : Steady m l) (M : ℕ → ℕ → BitVec 8) :
    Steady { m with mem := M } l :=
  ⟨h.1, h.2.1, h.2.2.congr rfl rfl rfl⟩

theorem Steady.setWord {m : Mm} {l : List ℕ} (h : Steady m l) : Steady (m.setWord f k w) l :=
  h.setMem _

end Write

/-! ### A page table that is added -/

/-- **The directory `d` has a new page table** at the index `i`: the frame `t`, which is full of
zeros. No other frame has changed. -/
structure AddedTable (m m' : Mm) (d t i : ℕ) : Prop where
  ne : d ≠ t
  lt : t < 2 ^ 20
  absent : isPresent (m.word d i) = false
  entry : m'.word d i = tablePde t
  other : ∀ j ≠ i, m'.word d j = m.word d j
  zero : ∀ k, m'.word t k = 0
  mem : ∀ g, g ≠ d → g ≠ t → m'.mem g = m.mem g

/-- A frame that `page_alloc` has cleared becomes the page table. -/
theorem addedTable_of_taken {s : Vm} {d t i : ℕ} {va : BitVec 32} {m₁ : Mm} (hdt : d ≠ t)
    (ht : t < 2 ^ 20) (habs : isPresent (s.mm.word d i) = false)
    (htaken : Taken s.mm m₁ allocZero t) {s' : Vm} {n : BitVec 16}
    (hs' : s' = (({ s with mm := m₁ } : Vm).writePte ⟨d, i⟩ va t (tablePde t)).setRef t n) :
    AddedTable s.mm s'.mm d t i := by
  have hword : ∀ g k, s'.mm.word g k = if g = d ∧ k = i then tablePde t else m₁.word g k := by
    intro g k
    rw [hs']
    exact @Vm.word_writePte { s with mm := m₁ } ⟨d, i⟩ va _ t g k
  refine ⟨hdt, ht, habs, (hword _ _).trans (if_pos ⟨rfl, rfl⟩), fun j hj => ?_, fun k => ?_,
    fun g hd hg => ?_⟩
  · rw [hword, if_neg fun hc => hj hc.2]
    exact Mm.word_of_mem (htaken.mem d hdt) j
  · rw [hword, if_neg fun hc => hdt hc.1.symm]
    exact Mm.word_of_zero (htaken.zero (by decide)) k
  · have hmem : s'.mm.mem g = m₁.mem g := by
      rw [hs']
      exact Function.update_of_ne hd ..
    exact hmem.trans (htaken.mem g hg)

/-! ### Entries -/

/-- **The page table entry of a virtual page**: 0 where there is no page table, and the entry of the
directory for a huge page. -/
def Mm.entry (m : Mm) (d p : ℕ) : BitVec 32 :=
  let pde := m.word d (p / 1024)
  if isPresent pde then
    if isHuge pde then pde else m.word (pgnum pde) (p % 1024)
  else 0

theorem Mm.entry_of_absent {m : Mm} {d p : ℕ} (h : isPresent (m.word d (p / 1024)) = false) :
    m.entry d p = 0 := by
  rw [Mm.entry, h]
  rfl

/-- The entry maps the frame. -/
def Maps (w : BitVec 32) (f : ℕ) : Prop := isPresent w = true ∧ pgnum w = f

instance (w : BitVec 32) (f : ℕ) : Decidable (Maps w f) := instDecidableAnd

theorem not_maps_zero (f : ℕ) : ¬ Maps 0 f := fun h => absurd h.1 (by decide)

/-- The pages below `UTOP` of the directories in `D`. -/
def userPages (D : Finset ℕ) : Finset (ℕ × ℕ) := D ×ˢ Finset.range (pdx uTop * 1024)

theorem mem_userPages {D : Finset ℕ} {d p : ℕ} :
    (d, p) ∈ userPages D ↔ d ∈ D ∧ p / 1024 < pdx uTop := by
  rw [userPages, Finset.mem_product, Finset.mem_range, Nat.div_lt_iff_lt_mul (by decide)]

/-- **The number of entries below `UTOP` that map a frame.** -/
def Mm.mappings (m : Mm) (D : Finset ℕ) (f : ℕ) : ℕ :=
  ((userPages D).filter fun x => Maps (m.entry x.1 x.2) f).card

/-- The frame `t` is the page table `i` of the directory `d`. -/
def Mm.Table (m : Mm) (D : Finset ℕ) (d i t : ℕ) : Prop :=
  d ∈ D ∧ i < pdx uTop ∧ Maps (m.word d i) t

theorem Mm.Table.low {m : Mm} {D : Finset ℕ} {d i t j : ℕ} (h : m.Table D d i t) (hj : j < 1024) :
    (i * 1024 + j) / 1024 < pdx uTop := by
  have hdiv : (i * 1024 + j) / 1024 = i := by omega
  rw [hdiv]
  exact h.2.1

/-- The frame is neither a directory nor a page table, nor one of the kernel's. -/
def Mm.Plain (m : Mm) (D K : Finset ℕ) (f : ℕ) : Prop :=
  f ∉ D ∧ f ∉ K ∧ ∀ d i, ¬ m.Table D d i f

/-- An entry of a page table: 0, or a single frame in use that is no page table. -/
def PteOk (m : Mm) (D K : Finset ℕ) (w : BitVec 32) : Prop :=
  w = 0 ∨ (isPresent w = true ∧ m.Held (pgnum w) ∧ m.Plain D K (pgnum w))

/-- **The directories in `D` and their page tables hold what they should.** -/
structure PtInv (m : Mm) (D K : Finset ℕ) (l : List ℕ) : Prop where
  free : FreeInv m l
  held : ∀ f ∈ D, m.Held f
  kept : ∀ f ∈ K, f ∉ l
  away : ∀ f ∈ K, f ∉ D
  small : ∀ d ∈ D, ∀ i < pdx uTop, isPresent (m.word d i) = true → isHuge (m.word d i) = false
  table : ∀ d i t, m.Table D d i t → m.Held t ∧ t ∉ D ∧ t ∉ K ∧ (m.pages t).ppRef = 1
  apart : ∀ d i d' i' t, m.Table D d i t → m.Table D d' i' t → d = d' ∧ i = i'
  pte : ∀ d i t, m.Table D d i t → ∀ j < 1024, PteOk m D K (m.word t j)
  upper : ∀ d ∈ D, ∀ i < 1024, pdx uTop ≤ i → isPresent (m.word d i) = true →
    isHuge (m.word d i) = true ∨ pgnum (m.word d i) ∈ K ∨ pgnum (m.word d i) = d
  ref : ∀ f < m.npages, m.Plain D K f → (m.pages f).ppRef = BitVec.ofNat 16 (m.mappings D f)

/-- Two predicates that differ at one element only count the same but for it. -/
theorem card_filter_of_ne {α : Type} [DecidableEq α] {S : Finset α} {a : α} (ha : a ∈ S)
    {P Q : α → Prop} [DecidablePred P] [DecidablePred Q] (h : ∀ x ∈ S, x ≠ a → (P x ↔ Q x)) :
    (S.filter P).card + (if Q a then 1 else 0) = (S.filter Q).card + (if P a then 1 else 0) := by
  have hrest : (S.erase a).filter P = (S.erase a).filter Q := by
    refine Finset.filter_congr fun x hx => ?_
    exact h x (Finset.mem_of_mem_erase hx) (Finset.ne_of_mem_erase hx)
  have hsplit : ∀ (R : α → Prop) [DecidablePred R],
      (S.filter R).card = ((S.erase a).filter R).card + (if R a then 1 else 0) := by
    intro R _
    have hnot : a ∉ (S.erase a).filter R := by simp
    rw [← Finset.insert_erase ha, Finset.filter_insert, Finset.erase_insert (by simp)]
    split
    · rw [Finset.card_insert_of_notMem hnot]
    · rfl
  rw [hsplit P, hsplit Q, hrest]
  omega

section Mappings

variable {m m' : Mm} {D K : Finset ℕ}

theorem mappings_pos {d p f : ℕ} (hd : d ∈ D) (hp : p / 1024 < pdx uTop)
    (hmap : Maps (m.entry d p) f) :
    0 < m.mappings D f :=
  Finset.card_pos.2 ⟨(d, p), Finset.mem_filter.2 ⟨mem_userPages.2 ⟨hd, hp⟩, hmap⟩⟩

theorem exists_of_mappings_pos {f : ℕ} (h : 0 < m.mappings D f) :
    ∃ d ∈ D, ∃ p, p / 1024 < pdx uTop ∧ Maps (m.entry d p) f := by
  obtain ⟨⟨d, p⟩, hx⟩ := Finset.card_pos.1 h
  obtain ⟨hmem, hmap⟩ := Finset.mem_filter.1 hx
  obtain ⟨hd, hp⟩ := mem_userPages.1 hmem
  exact ⟨d, hd, p, hp, hmap⟩

/-- Nothing is mapped by empty directories. -/
theorem mappings_empty (h : ∀ d ∈ D, ∀ i, m.word d i = 0) (f : ℕ) : m.mappings D f = 0 := by
  by_contra hne
  obtain ⟨d, hd, p, -, hmap⟩ := exists_of_mappings_pos (Nat.pos_of_ne_zero hne)
  have hno : isPresent (m.word d (p / 1024)) = false := by
    rw [h d hd]
    decide
  rw [Mm.entry_of_absent hno] at hmap
  exact not_maps_zero f hmap

theorem mappings_congr (h : ∀ d ∈ D, ∀ p, p / 1024 < pdx uTop → m'.entry d p = m.entry d p)
    (f : ℕ) :
    m'.mappings D f = m.mappings D f := by
  refine congrArg Finset.card (Finset.filter_congr fun x hx => ?_)
  obtain ⟨hd, hp⟩ := mem_userPages.1 hx
  rw [h x.1 hd x.2 hp]

/-- One entry gets a new value. -/
theorem mappings_update {d p : ℕ} {w : BitVec 32} (hd : d ∈ D) (hp : p / 1024 < pdx uTop)
    (h : ∀ d' ∈ D, ∀ q, q / 1024 < pdx uTop →
      m'.entry d' q = if d' = d ∧ q = p then w else m.entry d' q) (f : ℕ) :
    m'.mappings D f + (if Maps (m.entry d p) f then 1 else 0) =
      m.mappings D f + (if Maps w f then 1 else 0) := by
  have hself : m'.entry d p = w := by rw [h d hd p hp, if_pos ⟨rfl, rfl⟩]
  have hcount := card_filter_of_ne (a := (d, p)) (mem_userPages.2 ⟨hd, hp⟩)
    (P := fun x => Maps (m'.entry x.1 x.2) f) (Q := fun x => Maps (m.entry x.1 x.2) f) ?_
  · dsimp only at hcount
    rw [hself] at hcount
    exact hcount
  · intro x hx hne
    obtain ⟨hd', hp'⟩ := mem_userPages.1 hx
    rw [h x.1 hd' x.2 hp', if_neg]
    rintro ⟨h₁, h₂⟩
    exact hne (Prod.ext h₁ h₂)

end Mappings

namespace PtInv

variable {m m' : Mm} {D K : Finset ℕ} {l l' : List ℕ}

/-- The entries of a table are those of the pages it is for. -/
theorem entry_table (h : PtInv m D K l) {d i t j : ℕ} (ht : m.Table D d i t) (hj : j < 1024) :
    m.entry d (i * 1024 + j) = m.word t j := by
  have hdiv : (i * 1024 + j) / 1024 = i := by omega
  have hmod : (i * 1024 + j) % 1024 = j := by omega
  rw [Mm.entry]
  rw [hdiv, hmod, ht.2.2.1, if_pos rfl, h.small d ht.1 i ht.2.1 ht.2.2.1, ht.2.2.2]
  rfl

/-- A page below `UTOP` has no page table, or its entry is one of the words of its table. -/
theorem entry_cases (h : PtInv m D K l) {d p : ℕ} (hd : d ∈ D) (hp : p / 1024 < pdx uTop) :
    (isPresent (m.word d (p / 1024)) = false ∧ m.entry d p = 0) ∨
      ∃ t, m.Table D d (p / 1024) t ∧ m.entry d p = m.word t (p % 1024) := by
  by_cases hP : isPresent (m.word d (p / 1024)) = true
  · have ht : m.Table D d (p / 1024) (pgnum (m.word d (p / 1024))) := ⟨hd, hp, hP, rfl⟩
    have hentry := h.entry_table ht (Nat.mod_lt p (by decide : 0 < 1024))
    rw [Nat.div_add_mod'] at hentry
    exact Or.inr ⟨_, ht, hentry⟩
  · have habs := Bool.eq_false_of_not_eq_true hP
    exact Or.inl ⟨habs, Mm.entry_of_absent habs⟩

/-- What the entry of a page below `UTOP` can be. -/
theorem entry_ok (h : PtInv m D K l) {d p : ℕ} (hd : d ∈ D) (hp : p / 1024 < pdx uTop) :
    PteOk m D K (m.entry d p) := by
  rcases h.entry_cases hd hp with ⟨-, hz⟩ | ⟨t, ht, hw⟩
  · exact Or.inl hz
  · rw [hw]
    exact h.pte d _ t ht _ (Nat.mod_lt _ (by decide))

/-- A frame that is mapped is in use, and is no page table. -/
theorem held_of_mapped (h : PtInv m D K l) {f : ℕ} (hf : 0 < m.mappings D f) :
    m.Held f ∧ m.Plain D K f := by
  obtain ⟨d, hd, p, hp, hP, rfl⟩ := exists_of_mappings_pos hf
  rcases h.entry_ok hd hp with hz | ⟨-, hheld, hplain⟩
  · rw [hz] at hP
    exact absurd hP (by decide)
  · exact ⟨hheld, hplain⟩

theorem mappings_free (h : PtInv m D K l) {f : ℕ} (hf : f ∈ l) : m.mappings D f = 0 := by
  by_contra hne
  exact h.free.not_mem_of_held (h.held_of_mapped (Nat.pos_of_ne_zero hne)).1 hf

theorem plain_free (h : PtInv m D K l) {f : ℕ} (hf : f ∈ l) : m.Plain D K f := by
  refine ⟨fun hd => ?_, fun hk => ?_, fun d i ht => ?_⟩
  · exact h.free.not_mem_of_held (h.held f hd) hf
  · exact h.kept f hk hf
  · exact h.free.not_mem_of_held (h.table d i f ht).1 hf

/-- **Directories that are empty.** -/
theorem empty (hfree : FreeInv m l) (hheld : ∀ d ∈ D, m.Held d)
    (hzero : ∀ d ∈ D, ∀ i, m.word d i = 0) (href : ∀ f < m.npages, f ∉ D → (m.pages f).ppRef = 0) :
    PtInv m D ∅ l := by
  have hno : ∀ d ∈ D, ∀ i, ¬ isPresent (m.word d i) = true := by
    intro d hd i
    rw [hzero d hd]
    decide
  refine ⟨hfree, hheld, by simp, by simp, ?_, ?_, ?_, ?_, ?_, ?_⟩
  · intro d hd i _ hP
    exact absurd hP (hno d hd i)
  · intro d i t ht
    exact absurd ht.2.2.1 (hno d ht.1 i)
  · intro d i _ _ t ht
    exact absurd ht.2.2.1 (hno d ht.1 i)
  · intro d i t ht
    exact absurd ht.2.2.1 (hno d ht.1 i)
  · intro d hd i _ _ hP
    exact absurd hP (hno d hd i)
  · intro f hf hplain
    rw [mappings_empty hzero, href f hf hplain.1]
    rfl

/-! ### Entries after a write -/

/-- The frames whose words the walks read. -/
def Reads (m : Mm) (D K : Finset ℕ) (g : ℕ) : Prop := g ∈ D ∨ g ∈ K ∨ ∃ d i, m.Table D d i g

theorem not_plain_of_reads {g : ℕ} (h : Reads m D K g) : ¬ m.Plain D K g := by
  rintro ⟨hd, hk, ht⟩
  rcases h with h | h | ⟨d, i, h⟩
  · exact hd h
  · exact hk h
  · exact ht d i h

/-- The word `j` of the page table `t` is written. -/
theorem entry_write (h : PtInv m D K l) {d i t j : ℕ} (ht : m.Table D d i t) (hj : j < 1024)
    {w : BitVec 32} (hword : ∀ g, Reads m D K g → ∀ k,
      m'.word g k = if g = t ∧ k = j then w else m.word g k) {d' p : ℕ} (hd' : d' ∈ D)
    (hp : p < 2 ^ 20) :
    m'.entry d' p = if d' = d ∧ p = i * 1024 + j then w else m.entry d' p := by
  have hdt : d' ≠ t := by
    rintro rfl
    exact (h.table d i d' ht).2.1 hd'
  have hpde : m'.word d' (p / 1024) = m.word d' (p / 1024) := by
    rw [hword d' (Or.inl hd'), if_neg fun hc => hdt hc.1]
  rw [Mm.entry, Mm.entry]
  rw [hpde]
  by_cases hP : isPresent (m.word d' (p / 1024)) = true
  · rw [if_pos hP, if_pos hP]
    by_cases hlow : p / 1024 < pdx uTop
    · have ht' : m.Table D d' (p / 1024) (pgnum (m.word d' (p / 1024))) := ⟨hd', hlow, hP, rfl⟩
      rw [h.small d' hd' _ hlow hP, hword _ (Or.inr (Or.inr ⟨_, _, ht'⟩))]
      simp only [Bool.false_eq_true, if_false]
      by_cases heq : d' = d ∧ p = i * 1024 + j
      · obtain ⟨rfl, rfl⟩ := heq
        have hdiv : (i * 1024 + j) / 1024 = i := by omega
        have hmod : (i * 1024 + j) % 1024 = j := by omega
        have hword : pgnum (m.word d' ((i * 1024 + j) / 1024)) = t ∧ (i * 1024 + j) % 1024 = j := by
          rw [hdiv]
          exact ⟨ht.2.2.2, hmod⟩
        rw [if_pos hword, if_pos ⟨rfl, rfl⟩]
      · rw [if_neg heq, if_neg]
        rintro ⟨hpg, hmod⟩
        rw [hpg] at ht'
        obtain ⟨rfl, hdiv⟩ := h.apart _ _ _ _ _ ht' ht
        exact heq ⟨rfl, by omega⟩
    · have hne : ¬ (d' = d ∧ p = i * 1024 + j) := by
        rintro ⟨-, rfl⟩
        have hi := ht.2.1
        omega
      rw [if_neg hne]
      rcases h.upper d' hd' (p / 1024) (by omega) (by omega) hP with hhuge | hup
      · rw [hhuge, if_pos rfl, if_pos rfl]
      · obtain ⟨-, htD, htK, -⟩ := h.table d i t ht
        have hkt : pgnum (m.word d' (p / 1024)) ≠ t := by
          intro heq
          rw [heq] at hup
          exact hup.elim htK fun hd => htD (hd ▸ hd')
        have hkeep : m'.word (pgnum (m.word d' (p / 1024))) (p % 1024) =
            m.word (pgnum (m.word d' (p / 1024))) (p % 1024) := by
          rw [hword _ (hup.elim (fun hk => Or.inr (Or.inl hk)) fun hd => Or.inl (hd.symm ▸ hd')),
            if_neg fun hc => hkt hc.1]
        rw [hkeep]
  · rw [if_neg hP, if_neg hP, if_neg]
    rintro ⟨rfl, rfl⟩
    have hdiv : (i * 1024 + j) / 1024 = i := by omega
    rw [hdiv] at hP
    exact hP ht.2.2.1

/-! ### Changes that keep the page tables -/

theorem table_congr (hdir : ∀ d ∈ D, ∀ i, m'.word d i = m.word d i) {d i t : ℕ} :
    m'.Table D d i t ↔ m.Table D d i t := by
  refine and_congr_right fun hd => ?_
  rw [hdir d hd]

theorem plain_congr (hdir : ∀ d ∈ D, ∀ i, m'.word d i = m.word d i) {f : ℕ} :
    m'.Plain D K f ↔ m.Plain D K f := by
  simp only [Mm.Plain, table_congr hdir]

/-- The directories are as before. -/
theorem transfer (h : PtInv m D K l) (hdir : ∀ d ∈ D, ∀ i, m'.word d i = m.word d i)
    (hfree : FreeInv m' l') (hkept : ∀ f ∈ K, f ∉ l')
    (hheld : ∀ g, g ∈ D ∨ (∃ d i, m.Table D d i g) → m'.Held g)
    (htable : ∀ d i t, m.Table D d i t → (m'.pages t).ppRef = 1)
    (hpte : ∀ d i t, m.Table D d i t → ∀ j < 1024, PteOk m' D K (m'.word t j))
    (href : ∀ f < m'.npages, m.Plain D K f →
      (m'.pages f).ppRef = BitVec.ofNat 16 (m'.mappings D f)) :
    PtInv m' D K l' where
  free := hfree
  held f hf := hheld f (Or.inl hf)
  kept := hkept
  away := h.away
  small d hd i hi := by
    rw [hdir d hd]
    exact h.small d hd i hi
  table d i t ht := by
    have ht := (table_congr hdir).1 ht
    obtain ⟨-, hD, hK, -⟩ := h.table d i t ht
    exact ⟨hheld t (Or.inr ⟨d, i, ht⟩), hD, hK, htable d i t ht⟩
  apart d i d' i' t ht ht' :=
    h.apart d i d' i' t ((table_congr hdir).1 ht) ((table_congr hdir).1 ht')
  pte d i t ht := hpte d i t ((table_congr hdir).1 ht)
  upper d hd i hi := by
    rw [hdir d hd]
    exact h.upper d hd i hi
  ref f hf hplain := href f hf ((plain_congr hdir).1 hplain)

/-- An entry that was one stays one, when the frame it maps stays in use. -/
theorem pteOk_congr (hdir : ∀ d ∈ D, ∀ i, m'.word d i = m.word d i) {w : BitVec 32}
    (h : PteOk m D K w) (hheld : isPresent w = true → m'.Held (pgnum w)) : PteOk m' D K w := by
  rcases h with hz | ⟨hP, -, hplain⟩
  · exact Or.inl hz
  · exact Or.inr ⟨hP, hheld hP, (plain_congr hdir).2 hplain⟩

/-- The words that the walks read are as before. -/
theorem entry_same (h : PtInv m D K l) (hword : ∀ g, Reads m D K g → ∀ k, m'.word g k = m.word g k)
    {d p : ℕ} (hd : d ∈ D) (hp : p < 2 ^ 20) : m'.entry d p = m.entry d p := by
  rw [Mm.entry, Mm.entry, hword d (Or.inl hd)]
  by_cases hP : isPresent (m.word d (p / 1024)) = true
  · rw [if_pos hP, if_pos hP]
    by_cases hhuge : isHuge (m.word d (p / 1024)) = true
    · rw [if_pos hhuge, if_pos hhuge]
    · rw [if_neg hhuge, if_neg hhuge]
      refine hword _ ?_ _
      by_cases hlow : p / 1024 < pdx uTop
      · exact Or.inr (Or.inr ⟨d, p / 1024, hd, hlow, hP, rfl⟩)
      · have hup := (h.upper d hd _ (by omega) (by omega) hP).resolve_left hhuge
        exact hup.elim (fun hk => Or.inr (Or.inl hk)) fun heq => Or.inl (heq.symm ▸ hd)
  · rw [if_neg hP, if_neg hP]

theorem lt_pow_of_low {p : ℕ} (hp : p / 1024 < pdx uTop) : p < 2 ^ 20 := by
  rw [pdx_uTop] at hp
  omega

/-- **Nothing happens to the directories and the tables**, and no frame that is in use is lost. -/
theorem same (h : PtInv m D K l) (hword : ∀ g, Reads m D K g → ∀ k, m'.word g k = m.word g k)
    (hnp : m'.npages = m.npages) (hfree : FreeInv m' l') (hkept : ∀ f ∈ K, f ∉ l')
    (hheld : ∀ g, m.Held g → m'.Held g)
    (href : ∀ g, m.Plain D K g ∨ (∃ d i, m.Table D d i g) →
      (m'.pages g).ppRef = (m.pages g).ppRef) :
    PtInv m' D K l' := by
  have hdir : ∀ d ∈ D, ∀ i, m'.word d i = m.word d i := fun d hd => hword d (Or.inl hd)
  refine h.transfer hdir hfree hkept ?_ ?_ ?_ ?_
  · rintro g (hg | ⟨d, i, hg⟩)
    · exact hheld g (h.held g hg)
    · exact hheld g (h.table d i g hg).1
  · intro d i t ht
    rw [href t (Or.inr ⟨d, i, ht⟩)]
    exact (h.table d i t ht).2.2.2
  · intro d i t ht j hj
    rw [hword t (Or.inr (Or.inr ⟨d, i, ht⟩))]
    have hok := h.pte d i t ht j hj
    refine pteOk_congr hdir hok fun hP => hheld _ ?_
    rcases hok with hz | ⟨-, hh, -⟩
    · rw [hz] at hP
      exact absurd hP (by decide)
    · exact hh
  · intro f hf hplain
    rw [href f (Or.inl hplain),
      mappings_congr fun d hd p hp => h.entry_same hword hd (lt_pow_of_low hp)]
    rw [hnp] at hf
    exact h.ref f hf hplain

/-- **A frame of the free list is handed out.** -/
theorem take (h : PtInv m D K l) {req : BitVec 32} {pp : ℕ} (hpp : pp ∈ l) (ht : Taken m m' req pp)
    (hfree : FreeInv m' (l.erase pp)) :
    PtInv m' D K (l.erase pp) ∧ ∀ d ∈ D, ∀ p < 2 ^ 20, m'.entry d p = m.entry d p := by
  have hword : ∀ g, Reads m D K g → ∀ k, m'.word g k = m.word g k := by
    intro g hg k
    have hne : g ≠ pp := by
      rintro rfl
      exact not_plain_of_reads hg (h.plain_free hpp)
    exact Mm.word_of_mem (ht.mem g hne) k
  refine ⟨h.same hword ht.npages hfree (fun f hf hmem => ?_) (fun g hg => ?_) fun g _ => ht.ref g,
    fun d hd p hp => ?_⟩
  · exact h.kept f hf (List.mem_of_mem_erase hmem)
  · have hne : g ≠ pp := by
      rintro rfl
      exact h.free.not_mem_of_held hg hpp
    exact hg.congr ht.npages (ht.flags g hne)
  · exact h.entry_same hword hd hp

/-! ### A new value of one entry -/

/-- **One entry is written**, and the reference counts follow; a frame may be given back if nothing
maps it any more. -/
theorem edit (h : PtInv m D K l) {d i t j : ℕ} (ht : m.Table D d i t) (hj : j < 1024)
    {w : BitVec 32}
    (hword : ∀ g, Reads m D K g → ∀ k, m'.word g k = if g = t ∧ k = j then w else m.word g k)
    (hnp : m'.npages = m.npages) (hfree : FreeInv m' l') (hlist : ∀ g ∈ l', g ∈ l ∨ m.Plain D K g)
    (hw : PteOk m D K w)
    (hflags : ∀ g, (m'.pages g).pageFlags = (m.pages g).pageFlags ∨
      (m.Plain D K g ∧ m'.mappings D g = 0))
    (htable : ∀ d i g, m.Table D d i g → (m'.pages g).ppRef = (m.pages g).ppRef)
    (href : ∀ g, m.Plain D K g →
      (m'.pages g).ppRef + (if Maps (m.word t j) g then 1 else 0) =
        (m.pages g).ppRef + (if Maps w g then 1 else 0)) : PtInv m' D K l' := by
  have hdir : ∀ d ∈ D, ∀ i, m'.word d i = m.word d i := by
    intro d' hd' k
    rw [hword d' (Or.inl hd'), if_neg]
    rintro ⟨rfl, -⟩
    exact (h.table d i d' ht).2.1 hd'
  have hlow := ht.low hj
  have hentry : ∀ d' ∈ D, ∀ q, q / 1024 < pdx uTop →
      m'.entry d' q = if d' = d ∧ q = i * 1024 + j then w else m.entry d' q :=
    fun d' hd' q hq => h.entry_write ht hj hword hd' (lt_pow_of_low hq)
  -- a frame that an entry of the new state maps is not the one that was given back
  have hkeep : ∀ d' ∈ D, ∀ q, q / 1024 < pdx uTop → isPresent (m'.entry d' q) = true →
      m.Held (pgnum (m'.entry d' q)) → m'.Held (pgnum (m'.entry d' q)) := by
    intro d' hd' q hq hP hheld
    refine hheld.congr hnp ((hflags _).resolve_right ?_)
    rintro ⟨-, hzero⟩
    have hpos := mappings_pos hd' hq ⟨hP, rfl⟩
    omega
  refine h.transfer hdir hfree ?_ ?_ ?_ ?_ ?_
  · intro f hf hmem
    rcases hlist f hmem with hmem | hp
    · exact h.kept f hf hmem
    · exact hp.2.1 hf
  · rintro g (hg | ⟨d', i', hg⟩)
    · exact (h.held g hg).congr hnp ((hflags g).resolve_right fun hp => hp.1.1 hg)
    · exact (h.table d' i' g hg).1.congr hnp ((hflags g).resolve_right fun hp => hp.1.2.2 d' i' hg)
  · intro d' i' t' ht'
    rw [htable d' i' t' ht']
    exact (h.table d' i' t' ht').2.2.2
  · intro d' i' t' ht' j' hj'
    have hq := ht'.low hj'
    have hval : m'.word t' j' = m'.entry d' (i' * 1024 + j') := by
      rw [hentry d' ht'.1 _ hq, hword t' (Or.inr (Or.inr ⟨d', i', ht'⟩)), h.entry_table ht' hj']
      by_cases heq : t' = t ∧ j' = j
      · obtain ⟨rfl, rfl⟩ := heq
        obtain ⟨rfl, rfl⟩ := h.apart _ _ _ _ _ ht' ht
        rw [if_pos ⟨rfl, rfl⟩, if_pos ⟨rfl, rfl⟩]
      · rw [if_neg heq, if_neg]
        rintro ⟨rfl, hq'⟩
        obtain rfl : i' = i := by omega
        exact heq ⟨ht'.2.2.2.symm.trans ht.2.2.2, by omega⟩
    have hold : PteOk m D K (m'.word t' j') := by
      rw [hword t' (Or.inr (Or.inr ⟨d', i', ht'⟩))]
      split
      · exact hw
      · exact h.pte d' i' t' ht' j' hj'
    refine pteOk_congr hdir hold fun hP => ?_
    have hh : m.Held (pgnum (m'.word t' j')) := by
      rcases hold with hz | ⟨-, hh, -⟩
      · rw [hz] at hP
        exact absurd hP (by decide)
      · exact hh
    rw [hval] at hP hh ⊢
    exact hkeep d' ht'.1 _ hq hP hh
  · intro f hf hplain
    have hcount := mappings_update ht.1 hlow hentry f
    rw [h.entry_table ht hj] at hcount
    have hr := href f hplain
    rw [hnp] at hf
    rw [h.ref f hf hplain] at hr
    have hbits : ∀ (x y a b : ℕ) (r : BitVec 16), x + a = y + b →
        r + BitVec.ofNat 16 a = BitVec.ofNat 16 y + BitVec.ofNat 16 b → r = BitVec.ofNat 16 x := by
      intro x y a b r hxy hr
      rw [← BitVec.ofNat_add, ← hxy, BitVec.ofNat_add] at hr
      exact (BitVec.add_left_inj _).1 hr
    refine hbits _ _ _ _ _ hcount ?_
    rw [apply_ite (BitVec.ofNat 16), apply_ite (BitVec.ofNat 16)]
    exact hr

/-! ### A new page table -/

/-- The entry of the page is a word of the directory. -/
def Window (m : Mm) (d p : ℕ) : Prop :=
  isHuge (m.word d (p / 1024)) = false ∧ Maps (m.word d (p / 1024)) d

theorem not_window_of_low (h : PtInv m D K l) {d p : ℕ} (hd : d ∈ D) (hp : p / 1024 < pdx uTop) :
    ¬ Window m d p := by
  rintro ⟨-, hmap⟩
  exact (h.table d _ d ⟨hd, hp, hmap⟩).2.1 hd

section NewTable

variable {d i pg : ℕ} (h : PtInv m D K l) (hd : d ∈ D) (hi : i < pdx uTop)
  (habs : isPresent (m.word d i) = false) (hheld : m.Held pg) (hplain : m.Plain D K pg)
  (hno : m.mappings D pg = 0) (hzero : ∀ j, m.word pg j = 0)
  (hword : ∀ g k, m'.word g k = if g = d ∧ k = i then tablePde pg else m.word g k)

include hd hi hheld hword habs

/-- There is one page table more. -/
theorem table_newTable {d' i' t : ℕ} :
    m'.Table D d' i' t ↔ m.Table D d' i' t ∨ (d' = d ∧ i' = i ∧ t = pg) := by
  rw [Mm.Table, Mm.Table, hword]
  by_cases heq : d' = d ∧ i' = i
  · obtain ⟨rfl, rfl⟩ := heq
    have hpde : Maps (tablePde pg) t ↔ t = pg := by
      rw [Maps, isPresent_tablePde, pgnum_tablePde hheld.lt_pow]
      simp [eq_comm]
    rw [if_pos ⟨rfl, rfl⟩, hpde, Maps, habs]
    simp [hd, hi]
  · rw [if_neg heq]
    have hrest : ¬ (d' = d ∧ i' = i ∧ t = pg) := fun hc => heq ⟨hc.1, hc.2.1⟩
    simp [hrest]

include h hplain hzero

/-- The new page table is empty. -/
theorem entry_newTable {d' p : ℕ} (hd' : d' ∈ D) (hp : p < 2 ^ 20) (hwin : ¬ Window m d' p) :
    m'.entry d' p = m.entry d' p := by
  have hpgd : pg ≠ d := by
    rintro rfl
    exact hplain.1 hd
  rw [Mm.entry, Mm.entry]
  by_cases heq : d' = d ∧ p / 1024 = i
  · obtain ⟨rfl, rfl⟩ := heq
    have hpde : m'.word d' (p / 1024) = tablePde pg := by rw [hword, if_pos ⟨rfl, rfl⟩]
    have hempty : m'.word pg (p % 1024) = 0 := by rw [hword, if_neg fun hc => hpgd hc.1, hzero]
    rw [hpde, isPresent_tablePde, isHuge_tablePde, pgnum_tablePde hheld.lt_pow, habs, hempty]
    rfl
  · have hpde : m'.word d' (p / 1024) = m.word d' (p / 1024) := by rw [hword, if_neg heq]
    rw [hpde]
    by_cases hP : isPresent (m.word d' (p / 1024)) = true
    · rw [if_pos hP, if_pos hP]
      by_cases hhuge : isHuge (m.word d' (p / 1024)) = true
      · rw [if_pos hhuge, if_pos hhuge]
      · rw [if_neg hhuge, if_neg hhuge, hword, if_neg]
        rintro ⟨hpg, -⟩
        by_cases hlow : p / 1024 < pdx uTop
        · exact (h.table d' _ d ⟨hd', hlow, hP, hpg⟩).2.1 hd
        · have hup := (h.upper d' hd' _ (by omega) (by omega) hP).resolve_left hhuge
          rw [hpg] at hup
          rcases hup with hk | rfl
          · exact h.away d hk hd
          · exact hwin ⟨by simpa using hhuge, hP, hpg⟩
    · rw [if_neg hP, if_neg hP]

include hno

/-- **A page table is added to a directory.** -/
theorem newTable (hnp : m'.npages = m.npages) (hfree : FreeInv m' l)
    (hflags : ∀ g, (m'.pages g).pageFlags = (m.pages g).pageFlags)
    (href : ∀ g ≠ pg, (m'.pages g).ppRef = (m.pages g).ppRef) (hone : (m'.pages pg).ppRef = 1) :
    PtInv m' D K l := by
  have htab := @table_newTable m m' D d i pg hd hi habs hheld hword
  have hH : ∀ g, m.Held g → m'.Held g := fun g hg => hg.congr hnp (hflags g)
  -- a frame that is plain now was plain before, and is not the new table
  have hpl : ∀ g, m'.Plain D K g → m.Plain D K g ∧ g ≠ pg := by
    intro g hg
    refine ⟨⟨hg.1, hg.2.1, fun d' i' ht => hg.2.2 d' i' (htab.2 (Or.inl ht))⟩, ?_⟩
    rintro rfl
    exact hg.2.2 d i (htab.2 (Or.inr ⟨rfl, rfl, rfl⟩))
  have hpg : ∀ d' i' t, m.Table D d' i' t → t ≠ pg := by
    rintro d' i' t ht rfl
    exact hplain.2.2 d' i' ht
  have hdirs : ∀ t, t ∉ D → ∀ j, m'.word t j = m.word t j := by
    intro t ht j
    rw [hword, if_neg]
    rintro ⟨rfl, -⟩
    exact ht hd
  have hpos : ∀ d' i' t, m.Table D d' i' t → ∀ j < 1024, isPresent (m.word t j) = true →
      pgnum (m.word t j) ≠ pg := by
    intro d' i' t ht j hj hP heq
    have hmap : Maps (m.entry d' (i' * 1024 + j)) pg := by
      rw [h.entry_table ht hj]
      exact ⟨hP, heq⟩
    have := mappings_pos ht.1 (ht.low hj) hmap
    omega
  refine ⟨hfree, fun f hf => hH f (h.held f hf), h.kept, h.away, ?_, ?_, ?_, ?_, ?_, ?_⟩
  · intro d' hd' i' hi'
    rw [hword]
    split
    · intro _
      exact isHuge_tablePde pg
    · exact h.small d' hd' i' hi'
  · intro d' i' t ht
    rcases htab.1 ht with ht | ⟨rfl, rfl, rfl⟩
    · obtain ⟨hh, hD, hK, hone'⟩ := h.table d' i' t ht
      exact ⟨hH t hh, hD, hK, (href t (hpg d' i' t ht)).trans hone'⟩
    · exact ⟨hH _ hheld, hplain.1, hplain.2.1, hone⟩
  · intro d₁ i₁ d₂ i₂ t h₁ h₂
    rcases htab.1 h₁ with h₁ | ⟨rfl, rfl, rfl⟩
    · rcases htab.1 h₂ with h₂ | ⟨rfl, rfl, rfl⟩
      · exact h.apart _ _ _ _ _ h₁ h₂
      · exact absurd rfl (hpg _ _ _ h₁)
    · rcases htab.1 h₂ with h₂ | ⟨rfl, rfl, -⟩
      · exact absurd rfl (hpg _ _ _ h₂)
      · exact ⟨rfl, rfl⟩
  · intro d' i' t ht j hj
    rcases htab.1 ht with ht | ⟨rfl, rfl, rfl⟩
    · rw [hdirs t (h.table d' i' t ht).2.1]
      rcases h.pte d' i' t ht j hj with hz | ⟨hP, hh, hp⟩
      · exact Or.inl hz
      · refine Or.inr ⟨hP, hH _ hh, hp.1, hp.2.1, fun d'' i'' ht'' => ?_⟩
        rcases htab.1 ht'' with ht'' | ⟨-, -, heq⟩
        · exact hp.2.2 d'' i'' ht''
        · exact hpos d' i' t ht j hj hP heq
    · rw [hdirs t hplain.1]
      exact Or.inl (hzero j)
  · intro d' hd' i' hi' hup
    have hne : ¬ (d' = d ∧ i' = i) := by
      rintro ⟨-, rfl⟩
      omega
    rw [hword, if_neg hne]
    exact h.upper d' hd' i' hi' hup
  · intro f hf hp
    obtain ⟨hp, hne⟩ := hpl f hp
    rw [href f hne, mappings_congr fun d' hd' p hp => ?_]
    · rw [hnp] at hf
      exact h.ref f hf hp
    · exact h.entry_newTable hd hi habs hheld hplain hzero hword hd' (lt_pow_of_low hp)
        (h.not_window_of_low hd' hp)

end NewTable

end PtInv

end Jos
