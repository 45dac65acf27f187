/-
**Loading an area of the program.**

The first access to an area of the program loads the whole area: `region_alloc` gives every page a
new frame, whatever was there, `memcpy` writes the bytes of the image and `memset` clears what lies
behind them. The bytes before the file part keep what the new frame held, and `memcpy` does not stop
at the end of the area.

Main definitions:

* `Jos.BinarySite` — an area of the program in an address space that is in order;
* `Jos.AreaLoaded` — **what the loading leaves behind**.

Main results:

* `Jos.BinarySite.loaded` — `region_alloc`, `memcpy`, `memset` and `vma_change_perm`, one after the
  other.
-/

import JosKernel.Protect
import JosKernel.RegionFill

set_option relaxedAutoImplicit false
set_option autoImplicit false

namespace Jos

open LinkedList Outcome

/-! ### The addresses of an area -/

/-- The address `i` of an area. -/
def Vma.addr (a : Vma) (i : ℕ) : BitVec 32 := a.va + BitVec.ofNat 32 i

/-- The number of pages of an area. -/
def Vma.count (a : Vma) : ℕ := a.len.toNat / 4096

/-- The page `q` belongs to the area. -/
def Vma.Spans (a : Vma) (q : ℕ) : Prop := vpn a.va ≤ q ∧ q < vpn a.va + a.count

theorem Vma.spans_add (a : Vma) {j : ℕ} (hj : j < a.count) : a.Spans (vpn a.va + j) :=
  ⟨Nat.le_add_right .., Nat.add_lt_add_left hj _⟩

theorem Vma.spans_or (a : Vma) (q : ℕ) : (∃ j < a.count, q = vpn a.va + j) ∨ ¬ a.Spans q := by
  by_cases hq : a.Spans q
  · obtain ⟨hle, hlt⟩ := hq
    exact Or.inl ⟨q - vpn a.va, by omega, by omega⟩
  · exact Or.inr hq

theorem Vma.addr_add (a : Vma) (x : BitVec 32) (k : ℕ) :
    a.va + x + BitVec.ofNat 32 k = a.addr (x.toNat + k) := by
  rw [Vma.addr, BitVec.ofNat_add, BitVec.ofNat_toNat, BitVec.setWidth_eq, BitVec.add_assoc]

theorem Vma.Fits.vpn_addr {a : Vma} (h : a.Fits) {i : ℕ} (hi : a.va.toNat + i < uTop.toNat) :
    vpn (a.addr i) = vpn a.va + i / 4096 ∧ pgoff (a.addr i) = i % 4096 := by
  have hpage := h.page
  rw [pgoff_eq, vpn, vpn, Vma.addr, addr_toNat hi]
  omega

theorem Mm.mapsTo_iff {m : Mm} {d q g : ℕ} :
    m.MapsTo d q g ↔ m.translate d q = some (g, false) := by
  rw [Mm.MapsTo, Mm.translate]
  constructor
  · rintro ⟨w, hw, hP, rfl⟩
    rw [hw]
    exact if_pos hP
  · intro h
    cases hleaf : m.leaf d q with
    | none =>
        rw [hleaf] at h
        cases h
    | some r =>
        obtain ⟨w, b⟩ := r
        rw [hleaf] at h
        cases b with
        | true => cases (Prod.mk.inj (Option.some.inj h)).2
        | false =>
            dsimp only at h
            split at h
            · rename_i hP
              exact ⟨w, rfl, hP, (Prod.mk.inj (Option.some.inj h)).1⟩
            · cases h

/-! ### The area before -/

/-- **An area of the program**, below the last page below `UTOP`, whose pages are absent or in
frames of their own. -/
structure BinarySite (s : Vm) (e d v : ℕ) (l : List ℕ) : Prop where
  dir : s.pgdir e = some d
  inv : DirInv s.mm d l
  fits : (s.vma e v).Fits
  below : (s.vma e v).va.toNat + (s.vma e v).len.toNat + 4096 ≤ uTop.toNat
  perm : (s.vma e v).perm.toNat < 4096 ∧ isHuge (s.vma e v).perm = false
  offset : (s.vma e v).cpyDst.toNat < 4096
  pages : PagesApart s.mm d
  used : ∀ q f b, q / 1024 < pdx uTop → s.mm.translate d q = some (f, b) → f ∉ l
  small : ∀ q, (s.vma e v).Spans q → ∀ w, s.mm.leaf d q ≠ some (w, true)
  held : ∀ q, (s.vma e v).Spans q → ∀ g, s.mm.MapsTo d q g → s.mm.Held g

namespace BinarySite

variable {s s₁ : Vm} {e d v : ℕ} {l l₁ : List ℕ} {fr : ℕ → ℕ}

theorem low (h : BinarySite s e d v l) {q : ℕ} (hq : (s.vma e v).Spans q) :
    q / 1024 < pdx uTop ∧ q ≠ pdx uTop * 1024 - 1 := by
  have hU : uTop.toNat = 4005560320 := rfl
  have hU' := pdx_uTop
  have hbelow := h.below
  have hlt := hq.2
  rw [Vma.count, vpn] at hlt
  omega

theorem perm_or (h : BinarySite s e d v l) : ((s.vma e v).perm ||| pteW).toNat < 4096 := by
  rw [BitVec.toNat_or]
  exact Nat.or_lt_two_pow (n := 12) h.perm.1 (by decide)

theorem fillArea (h : BinarySite s e d v l) :
    FillArea s.mm d (vpn (s.vma e v).va) (s.vma e v).count where
  low := by
    have hU : uTop.toNat = 4005560320 := rfl
    have hU' := pdx_uTop
    have hbelow := h.below
    rw [Vma.count, vpn]
    omega
  small j hj := h.small _ (Vma.spans_add _ hj)
  held j hj g hg := ⟨h.held _ (Vma.spans_add _ hj) g hg, h.pages.aside _ g false
    (h.low (Vma.spans_add _ hj)).1 (Mm.mapsTo_iff.1 hg)⟩
  single i hi j hj g hg hg' := by
    have heq := h.pages.sole _ _ g false false (h.low (Vma.spans_add _ hi)).1
      (h.low (Vma.spans_add _ hj)).1 (Mm.mapsTo_iff.1 hg)
      (Mm.mapsTo_iff.1 hg')
    omega

/-! ### The area with new frames -/

theorem leaf_old (hf : AreaFilled s s₁ d (vpn (s.vma e v).va) (s.vma e v).count (s.vma e v).count
    ((s.vma e v).perm ||| pteW) l l₁ fr)
    {p : ℕ} (hp : p / 1024 < pdx uTop) (hout : ¬ (s.vma e v).Spans p) :
    s₁.mm.leaf d p = s.mm.leaf d p ∨ s.mm.leaf d p = none ∧ s₁.mm.leaf d p = some (0, false) := by
  refine hf.leaf_old p hp fun j hj hc => hout ?_
  rw [hc]
  exact Vma.spans_add _ hj

section Filled

variable (h : BinarySite s e d v l)
  (hf : AreaFilled s s₁ d (vpn (s.vma e v).va) (s.vma e v).count (s.vma e v).count
    ((s.vma e v).perm ||| pteW) l l₁ fr)

include h hf

theorem translate_new {j : ℕ} (hj : j < (s.vma e v).count) :
    s₁.mm.translate d (vpn (s.vma e v).va + j) = some (fr j, false) := by
  have hlt : fr j < 2 ^ 20 := Nat.lt_of_lt_of_le (hf.fresh j hj).1 s.mm.npages_le
  exact Mm.mapsTo_iff.1 ⟨_, hf.leaf_new j hj, isPresent_newPte _ _, pgnum_newPte hlt h.perm_or⟩

omit h in
theorem translate_old {p : ℕ} (hp : p / 1024 < pdx uTop) (hout : ¬ (s.vma e v).Spans p) :
    s₁.mm.translate d p = s.mm.translate d p := by
  rcases leaf_old hf hp hout with hsame | ⟨hnone, hzero⟩
  · exact Mm.translate_congr hsame
  · rw [Mm.translate, Mm.translate, hnone, hzero]
    rfl

/-- The frames of the other pages are as they were. -/
theorem keep_old {p f : ℕ} {b : Bool} (hp : p / 1024 < pdx uTop) (hout : ¬ (s.vma e v).Spans p)
    (ht : s.mm.translate d p = some (f, b)) :
    s₁.mm.mem f = s.mm.mem f ∧ ¬ s₁.mm.WalkFrame d f ∧ ∀ j < (s.vma e v).count, fr j ≠ f := by
  obtain ⟨hmem, -, haside, hne⟩ :=
    hf.keep f (h.used p f b hp ht) (h.pages.aside p f b hp ht) fun j hj hc => hout (by
    rw [h.pages.sole p _ f b false hp (h.low (Vma.spans_add _ hj)).1 ht (Mm.mapsTo_iff.1 hc)]
    exact Vma.spans_add _ hj)
  exact ⟨hmem, haside, hne⟩

theorem pagesApart : PagesApart s₁.mm d := by
  refine ⟨fun q f b hq ht => ?_, fun q q' f b b' hq hq' ht ht' => ?_, ?_⟩
  · rcases Vma.spans_or (s.vma e v) q with ⟨j, hj, rfl⟩ | hout
    · rw [h.translate_new hf hj] at ht
      obtain rfl := (Prod.mk.inj (Option.some.inj ht)).1
      exact (hf.fresh j hj).2.2.1
    · rw [translate_old hf hq hout] at ht
      exact (h.keep_old hf hq hout ht).2.1
  · rcases Vma.spans_or (s.vma e v) q with ⟨j, hj, rfl⟩ | hout
    · rw [h.translate_new hf hj] at ht
      obtain rfl := (Prod.mk.inj (Option.some.inj ht)).1
      rcases Vma.spans_or (s.vma e v) q' with ⟨j', hj', rfl⟩ | hout'
      · rw [h.translate_new hf hj'] at ht'
        rw [hf.inj j' hj' j hj (Prod.mk.inj (Option.some.inj ht')).1]
      · rw [translate_old hf hq' hout'] at ht'
        exact ((h.keep_old hf hq' hout' ht').2.2 j hj rfl).elim
    · rw [translate_old hf hq hout] at ht
      rcases Vma.spans_or (s.vma e v) q' with ⟨j', hj', rfl⟩ | hout'
      · rw [h.translate_new hf hj'] at ht'
        exact ((h.keep_old hf hq hout ht).2.2 j' hj' (Prod.mk.inj (Option.some.inj ht')).1).elim
      · rw [translate_old hf hq' hout'] at ht'
        exact h.pages.sole q q' f b b' hq hq' ht ht'
  · have hU' := pdx_uTop
    rw [translate_old hf (by omega) fun hc => (h.low hc).2 rfl]
    exact h.pages.guard

end Filled

end BinarySite

/-! ### The bytes -/

/-- Writes to pages leave the tables alone. -/
theorem DirInv.written {s s' : Vm} {d : ℕ} {l : List ℕ} (h : DirInv s.mm d l)
    (honly : s' = { s with mm := { s.mm with mem := s'.mm.mem } })
    (hwalk : ∀ g, s.mm.WalkFrame d g → s'.mm.mem g = s.mm.mem g) :
    DirInv s'.mm d l ∧ (∀ g, s'.mm.WalkFrame d g ↔ s.mm.WalkFrame d g) ∧ ∀ p, p / 1024 < pdx uTop →
      s'.mm.leaf d p = s.mm.leaf d p := by
  have hpages : s'.mm.pages = s.mm.pages := by rw [honly]
  refine h.congr hwalk (fun g _ => by rw [hpages]) ?_ fun _ hg => hg
  have hfree := h.free
  rw [honly]
  exact ⟨hfree.chain, hfree.listed, hfree.off⟩

/-- **The bytes of the area `a` after `memcpy` and `memset`**, through the pages as they are mapped
in `s`. -/
structure BytesLoaded (s s' : Vm) (d : ℕ) (a : Vma) : Prop where
  only : s' = { s with mm := { s.mm with mem := s'.mm.mem } }
  walk : ∀ g, s.mm.WalkFrame d g → s'.mm.mem g = s.mm.mem g
  file : ∀ k < a.srcSz.toNat, ∀ f b, s.mm.translate d (vpn (a.addr (a.cpyDst.toNat + k))) =
    some (f, b) →
    s'.mm.mem f (pgoff (a.addr (a.cpyDst.toNat + k))) = s.image (a.cpySrc + BitVec.ofNat 32 k)
  zero : a.perm ≠ 0 → ∀ i < a.len.toNat, a.cpyDst.toNat + a.srcSz.toNat ≤ i → ∀ f b,
    s.mm.translate d (vpn (a.addr i)) = some (f, b) → s'.mm.mem f (pgoff (a.addr i)) = 0
  miss : ∀ g o, (∀ k < a.srcSz.toNat, ∀ b, s.mm.translate d (vpn (a.addr (a.cpyDst.toNat + k))) =
    some (g, b) →
      pgoff (a.addr (a.cpyDst.toNat + k)) ≠ o) →
    (∀ i < a.len.toNat, a.cpyDst.toNat + a.srcSz.toNat ≤ i →
      ∀ b, s.mm.translate d (vpn (a.addr i)) = some (g, b) →
      pgoff (a.addr i) ≠ o) → s'.mm.mem g o = s.mm.mem g o
  low : a.va.toNat + (a.cpyDst.toNat + a.srcSz.toNat) < uTop.toNat

/-- `memcpy` and `memset` of `alloc_page_after_fault`. -/
def fillBinary (s : Vm) (e : ℕ) (a : Vma) : Except Crash Vm := do
  let s ← kernelFill s e (a.va + a.cpyDst) (fun k => s.image (a.cpySrc + BitVec.ofNat 32 k))
      a.srcSz.toNat
  if a.srcSz ≠ a.len ∧ a.perm ≠ 0 then
    kernelFill s e (a.va + a.cpyDst + a.srcSz) (fun _ => 0) (a.len - a.srcSz - a.cpyDst).toNat
  else pure s

theorem fillBinary_loaded {s : Vm} {e d : ℕ} {a : Vma} {l : List ℕ} (hd : s.pgdir e = some d)
    (hinv : DirInv s.mm d l) (hp : PagesApart s.mm d) (hfits : a.Fits)
    (hbelow : a.va.toNat + a.len.toNat + 4096 ≤ uTop.toNat) (hoff : a.cpyDst.toNat < 4096) :
    Ends (fun _ => a.len.toNat < a.cpyDst.toNat + a.srcSz.toNat ∨ ∃ i < a.len.toNat, ∀ f,
      mmu s e (a.addr i) false true ≠ .frame f)
      (fun s' => BytesLoaded s s' d a) (fillBinary s e a) := by
  have hU : uTop.toNat = 4005560320 := rfl
  have hpage := hfits.page
  have hpos := hfits.pos
  have hdst : (a.va + a.cpyDst).toNat = a.va.toNat + a.cpyDst.toNat := by
    rw [BitVec.toNat_add]
    omega
  unfold fillBinary
  rw [ends_bind]
  refine (kernelFill_wrote hd hp (by omega) _ _).mono (fun _ hfault => ?_) fun s₁ h₁ => ?_
  · obtain ⟨k, hk, hno⟩ := hfault
    rw [Vma.addr_add] at hno
    refine or_iff_not_imp_left.2 fun hin => ⟨a.cpyDst.toNat + k, by omega, hno⟩
  have hlow₁ := h₁.low
  rw [hdst] at hlow₁
  obtain ⟨-, hwalk₁, hleaf₁⟩ := hinv.written h₁.only h₁.walk
  have hmiss₁ := h₁.miss
  have hhit₁ := h₁.hit
  simp only [Vma.addr_add] at hmiss₁ hhit₁
  have hlowp : ∀ i < a.len.toNat, vpn (a.addr i) / 1024 < pdx uTop := by
    intro i hi
    have hU' := pdx_uTop
    rw [(hfits.vpn_addr (by omega)).1, vpn]
    omega
  refine ends_ite (fun hc => ?_) fun hc => ?_
  · have hd₁ : s₁.pgdir e = some d := by
      rw [h₁.only]
      exact hd
    have hp₁ : PagesApart s₁.mm d := hp.congr hwalk₁ fun p hp => Mm.translate_congr (hleaf₁ p hp)
    have hdst₁ : (a.va + a.cpyDst + a.srcSz).toNat = a.va.toNat + a.cpyDst.toNat +
      a.srcSz.toNat := by
      rw [BitVec.toNat_add, hdst]
      omega
    have haddr : ∀ i, a.cpyDst.toNat + a.srcSz.toNat ≤ i →
        a.va + a.cpyDst + a.srcSz + BitVec.ofNat 32 (i - (a.cpyDst.toNat + a.srcSz.toNat)) =
          a.addr i := by
      intro i hi
      have hsum : (a.cpyDst + a.srcSz).toNat = a.cpyDst.toNat + a.srcSz.toNat := by
        rw [BitVec.toNat_add]
        omega
      rw [BitVec.add_assoc a.va, Vma.addr_add, hsum, Nat.add_sub_cancel' hi]
    refine (kernelFill_wrote hd₁ hp₁ (by omega) _ _).mono (fun _ hfault => ?_) fun s₂ h₂ => ?_
    · obtain ⟨k, hk, hno⟩ := hfault
      refine or_iff_not_imp_left.2 fun hin => ⟨a.cpyDst.toNat + a.srcSz.toNat + k, by bv_omega, ?_⟩
      have hak := haddr (a.cpyDst.toNat + a.srcSz.toNat + k) (Nat.le_add_right ..)
      rw [Nat.add_sub_cancel_left] at hak
      rw [← hak, ← mmu_congr hd hd₁ h₁.walk]
      exact hno
    have hlow₂ := h₂.low
    rw [hdst₁] at hlow₂
    -- the file part does not run over the end of the area, or `memset` would not come back
    have hin : a.cpyDst.toNat + a.srcSz.toNat ≤ a.len.toNat ∧
        (a.len - a.srcSz - a.cpyDst).toNat = a.len.toNat - (a.cpyDst.toNat + a.srcSz.toNat) := by
      bv_omega
    have hleaf : ∀ i < a.len.toNat, s₁.mm.translate d (vpn (a.addr i)) =
        s.mm.translate d (vpn (a.addr i)) :=
      fun i hi => Mm.translate_congr (hleaf₁ _ (hlowp i hi))
    have hhit₂ : ∀ i < a.len.toNat, a.cpyDst.toNat + a.srcSz.toNat ≤ i → ∀ f b,
        s.mm.translate d (vpn (a.addr i)) = some (f, b) → s₂.mm.mem f (pgoff (a.addr i)) = 0 := by
      intro i hi hle f b ht
      have hhit := h₂.hit (i - (a.cpyDst.toNat + a.srcSz.toNat)) (by omega) f b
      rw [haddr i hle, hleaf i hi] at hhit
      exact hhit ht
    have hmiss₂ : ∀ g o, (∀ i < a.len.toNat, a.cpyDst.toNat + a.srcSz.toNat ≤ i → ∀ b,
        s.mm.translate d (vpn (a.addr i)) = some (g, b) → pgoff (a.addr i) ≠ o) →
          s₂.mm.mem g o = s₁.mm.mem g o := by
      intro g o hno
      refine h₂.miss g o fun k hk b ht => ?_
      have hk' : a.cpyDst.toNat + a.srcSz.toNat + k < a.len.toNat := by omega
      have hak := haddr (a.cpyDst.toNat + a.srcSz.toNat + k) (Nat.le_add_right ..)
      rw [Nat.add_sub_cancel_left] at hak
      rw [hak, hleaf _ hk'] at ht
      rw [hak]
      exact hno _ hk' (Nat.le_add_right ..) b ht
    refine ⟨?_, fun g hg => (h₂.walk g ((hwalk₁ g).2 hg)).trans (h₁.walk g hg), fun k hk f b ht =>
      ?_, fun _ => hhit₂,
      fun g o hfile hzero => (hmiss₂ g o hzero).trans (hmiss₁ g o hfile), by omega⟩
    · have honly := h₂.only
      rw [h₁.only] at honly
      exact honly
    · refine (hmiss₂ f _ fun i hi hle b' ht' ho => ?_).trans (hhit₁ k hk f b ht)
      -- the two bytes would be the same one
      have hq := hp.sole _ _ f b' b (hlowp i hi) (hlowp (a.cpyDst.toNat + k) (by omega)) ht' ht
      rw [(hfits.vpn_addr (by omega)).1, (hfits.vpn_addr (by omega)).1] at hq
      rw [(hfits.vpn_addr (by omega)).2, (hfits.vpn_addr (by omega)).2] at ho
      omega
  · refine ⟨h₁.only, h₁.walk, hhit₁, fun hperm i hi hle => ?_,
      fun g o hfile _ => hmiss₁ g o hfile, by omega⟩
    have heq : a.srcSz = a.len := by
      by_contra hne
      exact hc ⟨hne, hperm⟩
    rw [heq] at hle
    omega

/-! ### The whole loading -/

/-- **What the loading of the area `a` leaves behind**: every page is mapped to a new frame with the
permissions of the area, the bytes are those of the image and zeroes, and the rest of the address
space is untouched but for what `memcpy` writes behind the area. -/
structure AreaLoaded (s s' : Vm) (d : ℕ) (a : Vma) (fr : ℕ → ℕ) : Prop where
  leaf_new : ∀ j < a.count, s'.mm.leaf d (vpn a.va + j) = some (newPte (fr j) a.perm, false) ∧
    pgnum (newPte (fr j) a.perm) = fr j
  leaf_old : ∀ p, p / 1024 < pdx uTop → ¬ a.Spans p →
    s'.mm.leaf d p = s.mm.leaf d p ∨ s.mm.leaf d p = none ∧ s'.mm.leaf d p = some (0, false)
  dir : DirGrows s.mm s'.mm d
  fresh : ∀ j < a.count, ¬ s.mm.MapsTo d (vpn a.va + j) (fr j)
  file : ∀ k < a.srcSz.toNat, a.cpyDst.toNat + k < a.len.toNat →
    s'.mm.mem (fr ((a.cpyDst.toNat + k) / 4096)) ((a.cpyDst.toNat + k) % 4096) =
      s.image (a.cpySrc + BitVec.ofNat 32 k)
  zero : a.perm ≠ 0 → ∀ i < a.len.toNat, a.cpyDst.toNat + a.srcSz.toNat ≤ i →
    s'.mm.mem (fr (i / 4096)) (i % 4096) = 0
  head : s.mm.premappedFlag = false → s.mm.pageFreeList = some (fr 0) ∧
    ∀ o < a.cpyDst.toNat, s'.mm.mem (fr 0) o = s.mm.mem (fr 0) o
  beyond : ∀ k < a.srcSz.toNat, a.len.toNat ≤ a.cpyDst.toNat + k → ∀ f b,
    s.mm.translate d (vpn (a.addr (a.cpyDst.toNat + k))) = some (f, b) →
    s'.mm.mem f (pgoff (a.addr (a.cpyDst.toNat + k))) = s.image (a.cpySrc + BitVec.ofNat 32 k)
  keep : ∀ q f b, q / 1024 < pdx uTop → ¬ a.Spans q → s.mm.translate d q = some (f, b) → ∀ o,
    (∀ k < a.srcSz.toNat, a.len.toNat ≤ a.cpyDst.toNat + k → vpn (a.addr (a.cpyDst.toNat + k)) = q →
      pgoff (a.addr (a.cpyDst.toNat + k)) ≠ o) → s'.mm.mem f o = s.mm.mem f o
  low : a.va.toNat + (a.cpyDst.toNat + a.srcSz.toNat) < uTop.toNat
  pgdir : ∀ e, s'.pgdir e = s.pgdir e

theorem or_pteW_of_writable {w : BitVec 32} (h : isWritable w = true) : w ||| pteW = w := by
  have hbit : w.getLsbD 1 = true := by
    by_contra hc
    have hzero : w &&& pteW = 0 := by
      apply BitVec.eq_of_getLsbD_eq
      intro i hi
      by_cases hi₁ : i = 1
      · subst hi₁
        rw [BitVec.getLsbD_and, Bool.eq_false_of_not_eq_true hc]
        rfl
      · have hoff : ∀ j < 32, j ≠ 1 → pteW.getLsbD j = false := by decide
        simp [hoff i hi hi₁]
    rw [isWritable, hzero] at h
    exact absurd h (by decide)
  apply BitVec.eq_of_getLsbD_eq
  intro i hi
  by_cases hi₁ : i = 1
  · subst hi₁
    rw [BitVec.getLsbD_or, hbit, Bool.true_or]
  · have hoff : ∀ j < 32, j ≠ 1 → pteW.getLsbD j = false := by decide
    rw [BitVec.getLsbD_or, hoff i hi hi₁, Bool.or_false]

theorem loadBinary_eq (s : Vm) (e v : ℕ) : loadBinary s e v =
    (regionAlloc s e (s.vma e v).va (s.vma e v).len ((s.vma e v).perm ||| pteW) >>= fun s₁ =>
      fillBinary s₁ e (s.vma e v) >>=
      fun s₂ => if ¬ isWritable (s.vma e v).perm then vmaChangePerm s₂ e v (s.vma e v).perm
        else pure s₂) := by
  unfold loadBinary fillBinary
  simp only [bind_assoc]
  refine congrArg _ (funext fun s₁ => congrArg _ (funext fun s₂ => ?_))
  split <;> rfl

/-- The page fault handler in an area that is found. -/
theorem allocPageAfterFault_eq {s : Vm} {e v : ℕ} {va : BitVec 32}
    (h : vmaLookup (s.envs e) va = .ok (some v)) :
    allocPageAfterFault s e va = if (s.vma e v).type = .binary then (do
      let s ← loadBinary s e v
      pure (FaultEnd.resumed, s)) else allocAnon s e v va := by
  unfold allocPageAfterFault
  rw [h]
  rfl

/-- **`vma_change_perm`** writes to the page tables of its environment only. -/
theorem vmaChangePerm_aside {s : Vm} {e d i : ℕ} {perm : BitVec 32} (hv : (s.vma e i).Fits)
    (ht : TlbTables s.mm d) (hd : s.pgdir e = some d) (hperm : isHuge perm = false)
    (hsmall : ∀ q, (s.vma e i).Spans q → isHuge (s.mm.word d (q / 1024)) = false) :
    Ends (fun _ => True) (fun s' => Elsewhere s.mm s'.mm d) (vmaChangePerm s e i perm) := by
  have hU : uTop.toNat = 4005560320 := rfl
  have hpage := hv.page
  have hlow := hv.low
  have hcount : pageCount (s.vma e i).len = (s.vma e i).count := by
    have hp : pgSize = 4096 := rfl
    rw [pageCount, toNat_roundUp (by omega), pagesOf, hp, Vma.count]
    omega
  obtain ⟨s₁, hs₁⟩ : ∃ s₁, (s.modSpace e fun sp => sp.modVma i fun v => { v with perm := perm }) =
      s₁ := ⟨_, rfl⟩
  have hmod : s₁.vma e i = { s.vma e i with perm := perm } := by
    rw [← hs₁, Vm.vma, Vm.modSpace_self, Space.modVma_self]
    rfl
  have hd₁ : s₁.pgdir e = some d := by
    rw [← hs₁]
    exact (pgdir_modSpace (f := fun sp => sp.modVma i fun v => { v with perm := perm }) s e
      (fun _ => rfl) e).trans hd
  have hmm : s₁.mm = s.mm := by
    rw [← hs₁]
    rfl
  rw [vmaChangePerm, hs₁, hmod]
  change Ends _ _ (changePermFrom e (s.vma e i).va perm (pageCount (s.vma e i).len) 0 s₁)
  rw [hcount, ← hmm]
  rw [← hmm] at ht
  refine changePermFrom_aside hperm _ 0 s₁ hd₁ ht (LowPages.of_le (by rw [Vma.count]; omega))
    fun q hle hlt _ _ => ?_
  rw [hmm]
  exact hsmall q ⟨by omega, by omega⟩

theorem isWritable_newPte (f : ℕ) (perm : BitVec 32) :
    isWritable (newPte f perm) = isWritable perm := by
  rw [isWritable, newPte, copyPte_and f perm (by decide) (by decide), isWritable]

theorem isWritable_tablePde (t : ℕ) : isWritable (tablePde t) = true := by
  rw [isWritable, tablePde, or_flag_and (by decide)]
  exact isWritable_or_pteW _

theorem isUser_newPte (f : ℕ) (perm : BitVec 32) : isUser (newPte f perm) = isUser perm := by
  rw [isUser, newPte, copyPte_and f perm (by decide) (by decide), isUser]

theorem isUser_tablePde (t : ℕ) : isUser (tablePde t) = true := by
  rw [isUser, tablePde_eq, page2pa_or_and t 7#32 (m := pteU) (by decide)]
  decide

namespace BinarySite

variable {s s₁ s₂ s₃ : Vm} {e d v : ℕ} {l l₁ : List ℕ} {fr : ℕ → ℕ}

/-- The area is filled and its bytes are written; then the entries get the permissions of the area,
if they have not got them. -/
theorem loaded_of (h : BinarySite s e d v l)
    (hf : AreaFilled s s₁ d (vpn (s.vma e v).va) (s.vma e v).count (s.vma e v).count
      ((s.vma e v).perm ||| pteW) l l₁ fr)
    (hb : BytesLoaded s₁ s₂ d (s.vma e v))
    (hnew : ∀ j < (s.vma e v).count, s₃.mm.leaf d (vpn (s.vma e v).va + j) =
      some (newPte (fr j) (s.vma e v).perm, false))
    (hold : ∀ p, p / 1024 < pdx uTop → ¬ (s.vma e v).Spans p → s₃.mm.leaf d p = s₁.mm.leaf d p)
    (hdir : ∀ i, s₃.mm.word d i = s₁.mm.word d i)
    (hmem : ∀ g, ¬ s₁.mm.WalkFrame d g → s₃.mm.mem g = s₂.mm.mem g)
    (hpg : ∀ e, s₃.pgdir e = s₁.pgdir e) : AreaLoaded s s₃ d (s.vma e v) fr := by
  have hU : uTop.toNat = 4005560320 := rfl
  have hU' := pdx_uTop
  have hpage := h.fits.page
  have hpos := h.fits.pos
  have hbelow := h.below
  have hlow := hb.low
  have himage : s₁.image = s.image := hf.same.image
  have hcount : (s.vma e v).count * 4096 = (s.vma e v).len.toNat := by
    rw [Vma.count]
    omega
  have haddr : ∀ i < (s.vma e v).len.toNat, vpn ((s.vma e v).addr i) =
      vpn (s.vma e v).va + i / 4096 ∧
      pgoff ((s.vma e v).addr i) = i % 4096 ∧ i / 4096 < (s.vma e v).count := by
    intro i hi
    refine ⟨(h.fits.vpn_addr (by omega)).1, (h.fits.vpn_addr (by omega)).2, ?_⟩
    rw [Vma.count]
    omega
  have haside : ∀ j < (s.vma e v).count, ¬ s₁.mm.WalkFrame d (fr j) :=
    fun j hj => (hf.fresh j hj).2.2.1
  -- a byte behind the area
  have hbehind : ∀ k < (s.vma e v).srcSz.toNat, (s.vma e v).len.toNat ≤
      (s.vma e v).cpyDst.toNat + k →
      vpn ((s.vma e v).addr ((s.vma e v).cpyDst.toNat + k)) / 1024 < pdx uTop ∧
        ¬ (s.vma e v).Spans (vpn ((s.vma e v).addr ((s.vma e v).cpyDst.toNat + k))) := by
    intro k hk hle
    rw [(h.fits.vpn_addr (by omega)).1]
    refine ⟨?_, fun hc => ?_⟩
    · rw [vpn]
      omega
    · have hlt := hc.2
      omega
  refine ⟨fun j hj =>
    ⟨hnew j hj, pgnum_newPte (Nat.lt_of_lt_of_le (hf.fresh j hj).1 s.mm.npages_le) h.perm.1⟩,
    fun p hp hout => ?_, hf.dir.trans (.of_eq hdir), fun j hj => (hf.fresh j hj).2.2.2,
    fun k hk hin => ?_, fun hperm i hi hle => ?_, fun hpre => ?_, fun k hk hle f b ht => ?_,
    fun q f b hq hout ht o hno => ?_,
    hlow, fun e => (hpg e).trans (hf.same.pgdir e)⟩
  · rw [hold p hp hout]
    exact leaf_old hf hp hout
  · obtain ⟨hvpn, hoff, hj⟩ := haddr _ hin
    rw [hmem _ (haside _ hj), ← himage, ← hoff]
    refine hb.file k hk (fr (((s.vma e v).cpyDst.toNat + k) / 4096)) false ?_
    rw [hvpn]
    exact h.translate_new hf hj
  · obtain ⟨hvpn, hoff, hj⟩ := haddr i hi
    rw [hmem _ (haside _ hj), ← hoff]
    refine hb.zero hperm i hi hle (fr (i / 4096)) false ?_
    rw [hvpn]
    exact h.translate_new hf hj
  · have hzero : 0 < (s.vma e v).count := by omega
    obtain ⟨hhead, hsame⟩ := hf.first hpre hzero
    refine ⟨hhead, fun o ho => ?_⟩
    have hoff := h.offset
    rw [hmem _ (haside 0 hzero), ← hsame]
    -- the bytes before the file part are in the first page
    have hfirst : ∀ i b, vpn (s.vma e v).va * 4096 + i < uTop.toNat →
        s₁.mm.translate d (vpn ((s.vma e v).addr i)) = some (fr 0, b) → i / 4096 = 0 := by
      intro i b hi ht
      have hvpn := (h.fits.vpn_addr (a := s.vma e v) (i := i) (by rw [vpn] at hi; omega)).1
      have hq := (h.pagesApart hf).sole _ _ (fr 0) b
        false (by rw [hvpn]; omega) (by rw [vpn]; omega) ht (h.translate_new hf hzero)
      omega
    refine hb.miss (fr 0) o (fun k hk b ht ho' => ?_) fun i hi hle b ht ho' => ?_
    · have hz := hfirst _ b (by rw [vpn]; omega) ht
      rw [(h.fits.vpn_addr (by omega)).2] at ho'
      omega
    · have hz := hfirst i b (by rw [vpn]; omega) ht
      rw [(h.fits.vpn_addr (by omega)).2] at ho'
      omega
  · obtain ⟨hq, hout⟩ := hbehind k hk hle
    rw [hmem f (h.keep_old hf hq hout ht).2.1, ← himage]
    refine hb.file k hk f b ?_
    rw [translate_old hf hq hout]
    exact ht
  · obtain ⟨hsame, hfw, -⟩ := h.keep_old hf hq hout ht
    rw [hmem f hfw, ← hsame]
    have hq' : s₁.mm.translate d q = some (f, b) := (translate_old hf hq hout).trans ht
    -- a page of the area is none of the other pages
    have hother : ∀ i b', i < (s.vma e v).len.toNat → s₁.mm.translate d (vpn ((s.vma e v).addr i)) ≠
        some (f, b') := by
      intro i b' hi ht'
      obtain ⟨hvpn, -, hj⟩ := haddr i hi
      have hspan := Vma.spans_add _ hj
      rw [hvpn] at ht'
      refine hout ?_
      rw [(h.pagesApart hf).sole _ _ f b b' hq (h.low hspan).1 hq' ht']
      exact hspan
    refine hb.miss f o (fun k hk b' ht' => ?_) fun i hi _ b' ht' => (hother i b' hi ht').elim
    by_cases hin : (s.vma e v).cpyDst.toNat + k < (s.vma e v).len.toNat
    · exact (hother _ b' hin ht').elim
    · obtain ⟨hlowk, -⟩ := hbehind k hk (by omega)
      exact hno k hk (by omega) ((h.pagesApart hf).sole _ _ f b' b hlowk hq ht' hq')

/-- **The first access to an area of the program.** -/
theorem loaded (h : BinarySite s e d v l) :
    Ends (fun _ => True) (fun s' => ∃ fr, AreaLoaded s s' d (s.vma e v) fr) (loadBinary s e v) := by
  have hpage := h.fits.page
  have hperm : isHuge ((s.vma e v).perm ||| pteW) = false := by
    rw [isHuge, or_flag_and (by decide)]
    exact h.perm.2
  rw [loadBinary_eq, ends_bind]
  refine (regionAlloc_filled h.inv h.fillArea h.dir hpage.1 (by rw [Vma.count]; omega) hperm).post
    ?_
  rintro s₁ ⟨l₁, fr, hf⟩
  have hd₁ : s₁.pgdir e = some d := (hf.same.pgdir e).trans h.dir
  rw [ends_bind]
  refine (fillBinary_loaded hd₁ hf.inv (h.pagesApart hf) h.fits h.below h.offset).mono
    (fun _ _ => True.intro) fun s₂ hb => ?_
  have honly := hb.only
  obtain ⟨hinv₂, hwalk₂, hleaf₂⟩ := hf.inv.written honly hb.walk
  have hvma₂ : s₂.vma e v = s.vma e v := by
    rw [honly]
    exact congrFun (hf.same.vmas e) v
  have hpg₂ : ∀ e, s₂.pgdir e = s₁.pgdir e := by
    rw [honly]
    exact fun _ => rfl
  have hnew₂ : ∀ j < (s.vma e v).count,
      s₂.mm.leaf d (vpn (s.vma e v).va + j) =
        some (newPte (fr j) ((s.vma e v).perm ||| pteW), false) := fun j hj =>
    (hleaf₂ _ (h.low (Vma.spans_add _ hj)).1).trans (hf.leaf_new j hj)
  have hdir₂ : ∀ i, s₂.mm.word d i = s₁.mm.word d i := Mm.word_of_mem (hb.walk d (Or.inl rfl))
  refine ends_ite (fun hW => ?_) fun hW => ?_
  · have hsmall : ∀ q, (s.vma e v).Spans q → isHuge (s₂.mm.word d (q / 1024)) = false := by
      intro q hq
      obtain ⟨j, hj, rfl⟩ := (Vma.spans_or (s.vma e v) q).resolve_right (not_not_intro hq)
      exact (Mm.leaf_eq_some (hnew₂ j hj)).2.1
    have hfits₂ : (s₂.vma e v).Fits := hvma₂ ▸ h.fits
    have hd₂ : s₂.pgdir e = some d := (hpg₂ e).trans hd₁
    cases hrun : vmaChangePerm s₂ e v (s.vma e v).perm with
    | error _ => exact True.intro
    | ok s₃ =>
        have haside := (vmaChangePerm_aside hfits₂ hinv₂.toTlbTables hd₂
          h.perm.2 (by rw [hvma₂]; exact hsmall)).of_ok hrun
        obtain ⟨hpg₃, hren⟩ :=
          vmaChangePerm_renewed hfits₂ hinv₂.toTlbTables hd₂ h.perm.2 (fun q hle hlt => by
          rw [hvma₂] at hle hlt
          refine hsmall q ⟨hle, ?_⟩
          rw [Vma.stop] at hlt
          rw [Vma.count, vpn]
          omega) hrun
        rw [hvma₂] at hren
        have hwalked : ∀ q, q ∈ s₂.mm.walked d (s.vma e v).count (vpn (s.vma e v).va) ↔
            (s.vma e v).Spans q := by
          intro q
          rw [Mm.mem_walked]
          refine ⟨fun hq => ⟨hq.1, hq.2.1⟩, fun hq => ⟨hq.1, hq.2, fun p hp hpq => ?_, ?_⟩⟩
          · obtain ⟨j, hj, rfl⟩ :=
              (Vma.spans_or (s.vma e v) p).resolve_right fun hc => hc ⟨hp, Nat.lt_trans hpq hq.2⟩
            rw [hnew₂ j hj]
            exact fun hc => by cases hc
          · obtain ⟨j, hj, rfl⟩ := (Vma.spans_or (s.vma e v) q).resolve_right (not_not_intro hq)
            exact ⟨_, _, hnew₂ j hj, isPresent_newPte _ _⟩
        refine ⟨fr, h.loaded_of hf hb (fun j hj => ?_) (fun p hp hout => ?_) (fun i => ?_)
          (fun g hg => ?_)
          fun e => (hpg₃ e).trans (hpg₂ e)⟩
        · rw [hren.written _ ((hwalked _).2 (Vma.spans_add _ hj)) _ _ (hnew₂ j hj), renew,
            pgnum_newPte (Nat.lt_of_lt_of_le (hf.fresh j hj).1 s.mm.npages_le) (h.perm_or)]
        · rw [hren.others p hp fun hc => hout ((hwalked p).1 hc)]
          exact hleaf₂ p hp
        · exact (Mm.word_of_mem haside.dir i).trans (hdir₂ i)
        · refine haside.mem g fun hc => hg ((hwalk₂ g).1 (Mm.lowFrame_walkFrame hc))
  · refine ⟨fr, h.loaded_of hf hb (fun j hj => ?_) (fun p hp _ => hleaf₂ p hp) hdir₂
      (fun _ _ => rfl) hpg₂⟩
    rw [hnew₂ j hj, or_pteW_of_writable (not_not.1 hW)]

theorem loaded_ok (h : BinarySite s e d v l) (hrun : loadBinary s e v = .ok s₁) :
    ∃ fr, AreaLoaded s s₁ d (s.vma e v) fr :=
  h.loaded.of_ok hrun

/-- **The loading comes to its end** if `region_alloc` does, the file part lies in the area and the
area is writable. -/
theorem runs (h : BinarySite s e d v l)
    (hregion : ∃ s₁, regionAlloc s e (s.vma e v).va (s.vma e v).len ((s.vma e v).perm ||| pteW) =
      .ok s₁)
    (hin : (s.vma e v).cpyDst.toNat + (s.vma e v).srcSz.toNat ≤ (s.vma e v).len.toNat)
    (hW : isWritable (s.vma e v).perm = true)
    (hdir : ∀ q, (s.vma e v).Spans q → isPresent (s.mm.word d (q / 1024)) = true →
      isWritable (s.mm.word d (q / 1024)) = true) :
    ∃ s', loadBinary s e v = .ok s' := by
  have hU : uTop.toNat = 4005560320 := rfl
  have hpage := h.fits.page
  have hbelow := h.below
  obtain ⟨s₁, hrun⟩ := hregion
  have hperm : isHuge ((s.vma e v).perm ||| pteW) = false := by
    rw [isHuge, or_flag_and (by decide)]
    exact h.perm.2
  obtain ⟨l₁, fr, hf⟩ :=
    (regionAlloc_filled h.inv h.fillArea h.dir hpage.1 (by rw [Vma.count]; omega) hperm).of_ok hrun
  have hd₁ : s₁.pgdir e = some d := (hf.same.pgdir e).trans h.dir
  have hends := fillBinary_loaded hd₁ hf.inv (h.pagesApart hf) h.fits h.below h.offset
  obtain ⟨s₂, hfill, -⟩ := hends.exists_ok fun _ hc => by
    rcases hc with hover | ⟨i, hi, hno⟩
    · omega
    · have hvpn := (h.fits.vpn_addr (a := s.vma e v) (i := i) (by omega)).1
      have hj : i / 4096 < (s.vma e v).count := by
        rw [Vma.count]
        omega
      have hleaf := hf.leaf_new _ hj
      have hP := (Mm.leaf_eq_some hleaf).1
      refine hno (pgnum (newPte (fr (i / 4096)) ((s.vma e v).perm ||| pteW))) ?_
      rw [mmu_eq hd₁, hvpn, hleaf]
      dsimp only
      have hpde : isWritable (s₁.mm.word d ((vpn (s.vma e v).va + i / 4096) / 1024)) = true := by
        rcases hf.dir ((vpn (s.vma e v).va + i / 4096) / 1024) with hsame | ⟨-, t, ht⟩
        · rw [hsame] at hP ⊢
          exact hdir _ (Vma.spans_add _ hj) hP
        · rw [ht]
          exact isWritable_tablePde t
      rw [if_neg (not_not_intro (isPresent_newPte _ _)), allows, allows, hpde, isWritable_newPte,
        isWritable_or_pteW]
      rfl
  refine ⟨s₂, ?_⟩
  rw [loadBinary_eq, hrun]
  change (fillBinary s₁ e (s.vma e v) >>= _) = _
  rw [hfill]
  change (if _ then _ else _) = _
  rw [if_neg (not_not_intro hW)]
  rfl

end BinarySite

end Jos
