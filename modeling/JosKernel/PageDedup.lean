/-
**The end of sharing.**

`page_dedup` of `kern/pmap.c` makes a read-only entry of a writable area writable again: it keeps
the frame when nobody else uses it, and otherwise drops the reference, takes a new frame and copies
the old one. The reference is dropped before it is known whether there is a frame, and one page of 4
KB is copied whatever the size of the page is.

Main definitions:

* `Jos.CowFault` — the states in which the function is called;
* `Jos.DedupMeets` — what it is for, with either result;
* `Jos.DedupFits` — the states in which it does that.

Main results:

* `Jos.pageAlloc_copy` — what `page_alloc` hands out for the copy;
* `Jos.pageDedup_meets_iff` — **the function meets its purpose exactly in those states**.
-/

import JosKernel.Fault
import JosKernel.PageMap

set_option relaxedAutoImplicit false
set_option autoImplicit false

namespace Jos

open LinkedList Outcome

/-! ### What the function is for -/

/-- The number of frames of the page that an entry maps. -/
def extent (w : BitVec 32) : ℕ := if isHuge w then kb else 1

/-- **A store to a page that is present and read-only, in a writable area `v`.** The entry `p` of
the address is the one of a 4 MB page in the directory or the one of a 4 KB page in a page table,
and the frame that holds it and the one that it maps are in use. -/
structure CowFault (s : Vm) (e d v : ℕ) (va : BitVec 32) (p : PtePtr) : Prop where
  dir : s.pgdir e = some d
  area : vmaLookup (s.envs e) va = .ok (some v)
  writable : isWritable (s.vma e v).perm = true
  pde : isPresent (s.pte ⟨d, pdx va⟩) = true
  entry : (isHuge (s.pte ⟨d, pdx va⟩) = true ∧ p = ⟨d, pdx va⟩) ∨
    (isHuge (s.pte ⟨d, pdx va⟩) = false ∧ p = ⟨pgnum (s.pte ⟨d, pdx va⟩), ptx va⟩ ∧ p.frame ≠ d ∧
      p.frame < s.mm.npages ∧ isHuge (s.pte p) = false)
  present : isPresent (s.pte p) = true
  readOnly : isWritable (s.pte p) = false
  dirUsed : (s.mm.pages d).has alloc = true
  tableUsed : (s.mm.pages p.frame).has alloc = true
  frame : pgnum (s.pte p) < s.mm.npages
  frameUsed : (s.mm.pages (pgnum (s.pte p))).has alloc = true
  counted : s.ref (pgnum (s.pte p)) ≠ 0

/-- The frame is the old one, whose only reference this is, or a free one that has become a copy of
it. -/
def DedupFrame (s s' : Vm) (l : List ℕ) (p : PtePtr) : Prop :=
  let pg := pgnum (s.pte p)
  let pg' := pgnum (s'.pte p)
  (s.ref pg = 1 ∧ pg' = pg ∧ s'.ref pg = 1) ∨
    (s.ref pg ≠ 1 ∧ pg' ∈ l ∧ (∀ k < extent (s.pte p), s'.mm.mem (pg' + k) = s.mm.mem (pg + k)) ∧
      s'.ref pg = s.ref pg - 1 ∧ s'.ref pg' = 1)

/-- **What `page_dedup` is to leave behind when it returns 1**, with the permissions `perm` of the
area. -/
structure DedupDone (s s' : Vm) (l : List ℕ) (d : ℕ) (va perm : BitVec 32) (p : PtePtr) : Prop where
  present : isPresent (s'.pte p) = true
  size : isHuge (s'.pte ⟨d, pdx va⟩) = isHuge (s.pte ⟨d, pdx va⟩)
  perm : s'.pte p &&& (pteW ||| pteU) = perm &&& (pteW ||| pteU)
  frame : DedupFrame s s' l p

/-- **What `page_dedup` is for**: when it returns 0, no entry and no reference count has changed. -/
def DedupMeets (s : Vm) (l : List ℕ) (d : ℕ) (va perm : BitVec 32) (p : PtePtr) (r : Bool × Vm) :
    Prop :=
  if r.1 then DedupDone s r.2 l d va perm p else (∀ q, r.2.pte q = s.pte q) ∧
    ∀ f, r.2.ref f = s.ref f

/-- **When it does that.** The page is not shared, and the program may use it as far as it may use
the area; or it is a shared page of 4 KB, and the list of free pages has a head whose address the
permissions leave alone; or it is a shared page of 4 MB, the permissions have `PTE_PS`, a block of
free pages is found, and all of it but the first 4 KB happens to hold what it should hold. -/
def DedupFits (s : Vm) (l : List ℕ) (perm : BitVec 32) (p : PtePtr) : Prop :=
  let pg := pgnum (s.pte p)
  (s.ref pg = 1 ∧ isUser (s.pte p) = isUser perm) ∨
  (s.ref pg ≠ 1 ∧ isHuge (s.pte p) = false ∧
    ∃ pgn, s.mm.pageFreeList = some pgn ∧ pgnum (page2pa pgn ||| perm ||| pteP) = pgn) ∨
  (s.ref pg ≠ 1 ∧ isHuge (s.pte p) = true ∧ s.mm.pageFreeList ≠ none ∧ isHuge perm = true ∧
    ∃ pgn ∈ l, findHugePage s.mm = some pgn ∧ pgnum (page2pa pgn ||| perm ||| pteP) = pgn ∧
      ∀ k, 0 < k → k < kb → s.mm.mem (pgn + k) = s.mm.mem (pg + k))

/-! ### Flags -/

theorem and_pteW (w : BitVec 32) : w &&& pteW = if isWritable w then pteW else 0 := by
  have htwo : pteW = BitVec.twoPow 32 1 := by decide
  have hw : isWritable w = w.getLsbD 1 := by
    rw [isWritable, htwo, BitVec.and_twoPow]
    cases w.getLsbD 1 <;> decide
  rw [hw, htwo, BitVec.and_twoPow]
  rfl

theorem and_pteU (w : BitVec 32) : w &&& pteU = if isUser w then pteU else 0 := by
  have htwo : pteU = BitVec.twoPow 32 2 := by decide
  have hw : isUser w = w.getLsbD 2 := by
    rw [isUser, htwo, BitVec.and_twoPow]
    cases w.getLsbD 2 <;> decide
  rw [hw, htwo, BitVec.and_twoPow]
  rfl

/-- The permissions of an entry are what the program may do. -/
theorem and_perm_eq_iff {w w' : BitVec 32} :
    w &&& (pteW ||| pteU) = w' &&& (pteW ||| pteU) ↔ isWritable w = isWritable w' ∧
      isUser w = isUser w' := by
  rw [BitVec.and_or_distrib_left, BitVec.and_or_distrib_left, and_pteW, and_pteW,
    and_pteU, and_pteU]
  cases isWritable w <;> cases isWritable w' <;> cases isUser w <;> cases isUser w' <;> decide

theorem isWritable_or_pteW (w : BitVec 32) : isWritable (w ||| pteW) = true := by
  have h : (w ||| pteW) &&& pteW = pteW := by
    rw [BitVec.and_comm]
    ext k hk
    simp only [BitVec.getElem_and, BitVec.getElem_or]
    cases pteW[k] <;> simp
  rw [isWritable, h]
  decide

/-! ### The frame for the copy -/

theorem decFreePages_mem (s : Mm) :
    Ends (fun _ => True) (fun s' => s'.mem = s.mem) (decFreePages s) :=
  ends_ite (fun _ => True.intro) fun _ => rfl

theorem removeElementPfl_mem (s : Mm) (pp : ℕ) :
    Ends (fun _ => True) (fun s' => s'.mem = s.mem) (removeElementPfl s pp) := by
  unfold removeElementPfl
  refine ends_ite (fun _ => decFreePages_mem _) fun _ => ?_
  split
  · exact True.intro
  · rfl
  · exact True.intro
  · exact decFreePages_mem _

/-- A round of the loop over a huge block leaves memory alone, unless it is asked to clear it. -/
theorem allocHugeRound_mem (hp : ℕ) (s : Mm) (i : ℕ) :
    Ends (fun _ => True) (fun s' => s'.mem = s.mem) (allocHugeRound allocHuge hp s i) := by
  unfold allocHugeRound markPoison
  rw [if_neg (by decide), pure_bind]
  refine ends_ite (fun _ => True.intro) fun _ => ?_
  refine ends_ite (fun _ => True.intro) fun _ => ?_
  rw [if_neg (by decide)]
  exact removeElementPfl_mem _ i

theorem scanBlock_congr {s s' : Mm} (h : ∀ i, (s'.pages i).pageFlags = (s.pages i).pageFlags)
    (hpIdx : ℕ) :
    ∀ n i count : ℕ, scanBlock s' hpIdx n i count = scanBlock s hpIdx n i count := by
  intro n
  induction n with
  | zero => exact fun _ _ => rfl
  | succ n ih =>
      intro i count
      rw [scanBlock, scanBlock, PageInfo.has, PageInfo.has, h, ih]

/-- The search for a block looks at flags only. -/
theorem findHugePage_congr {s s' : Mm} (hnp : s'.npages = s.npages)
    (h : ∀ i, (s'.pages i).pageFlags = (s.pages i).pageFlags) :
    findHugePage s' = findHugePage s := by
  have hblocks : ∀ n j count hpIdx : ℕ, scanBlocks s' n j count hpIdx =
      scanBlocks s n j count hpIdx := by
    intro n
    induction n with
    | zero => exact fun _ _ _ => rfl
    | succ n ih =>
        intro j count hpIdx
        simp only [scanBlocks, scanBlock_congr h, ih]
  rw [findHugePage, findHugePage, hnp, hblocks]

/-- **The frame that `page_dedup` takes**: the head of the list, or the first of a block. Reference
counts and the bytes of the frames in use are as before. -/
structure CopyFrame (m m' : Mm) (huge : Bool) (pgn : ℕ) : Prop where
  listed : m.pageFreeList ≠ none
  head : huge = false → m.pageFreeList = some pgn
  block : huge = true → findHugePage m = some pgn
  npages : m'.npages = m.npages
  ref : ∀ i, (m'.pages i).ppRef = (m.pages i).ppRef
  mem : ∀ f, (m.pages f).has alloc = true → m'.mem f = m.mem f
  whole : huge = true → m'.mem = m.mem
  lt : pgn < m.npages
  free : ∀ k < if huge then kb else 1, (m.pages (pgn + k)).has alloc = false

section Alloc

variable {m : Mm} {live : List Block} {l : List ℕ}

theorem pageAllocHuge_copy (h : AllocInv m live l) (hdrift : drift m l = 0)
    (hlist : m.pageFreeList ≠ none) :
    Ends (fun _ => False)
      (fun r => (r = (none, m) ∧ findHugePage m = none) ∨ ∃ pgn, r.1 = some pgn ∧
        CopyFrame m r.2 true pgn)
      (pageAllocHuge m allocHuge) := by
  unfold pageAllocHuge
  cases hfind : findHugePage m with
  | none => exact Or.inl ⟨rfl, rfl⟩
  | some hp =>
      obtain ⟨-, hnp, hfree⟩ := findHugePage_spec hfind
      have hzero : ∀ i, hp ≤ i → i < hp + kb → (m.pages i).pageFlags = 0 :=
        fun i hi hi' => (h.flags_of_not_alloc (hfree i hi hi')).1
      have hkb : 0 < kb := by decide
      have hhead : (m.pages hp).pageFlags = 0 := hzero hp (Nat.le_refl hp) (by omega)
      -- the blocks that are carved out, and memory as it was
      have hloop :=
        ends_foldlM_range' (E := fun _ => False) (f := allocHugeRound allocHuge hp) (a := hp)
        (P := fun k s' => Carved m s' l hp k ∧ s'.mem = m.mem) (n := kb)
        (b := m.modPage hp (PageInfo.set allocHuge)) ⟨h.carved_zero hzero, rfl⟩ (by
          rintro k hk s' ⟨hc, hmem⟩
          have hround :=
            (allocHugeRound_ends h hc hk hnp (show allocHuge &&& poisonAfterFree = 0 by decide)).and
            (allocHugeRound_mem hp s' (hp + k))
          refine hround.mono (fun _ hcrash => hcrash.1.2.1 hdrift) ?_
          rintro s'' ⟨hc', hmem'⟩
          exact ⟨hc', hmem'.trans hmem⟩)
      dsimp only
      unfold markPoison
      rw [if_neg (by decide), pure_bind, if_neg (by simp [PageInfo.has, hhead]), ends_bind]
      refine hloop.post ?_
      rintro s' ⟨hc, hmem⟩
      refine Or.inr ⟨hp, rfl, hlist, fun hf => (by cases hf), fun _ => hfind, hc.npages, hc.ref,
        fun f _ => congrFun hmem f,
        fun _ => hmem, by omega, fun k hk => hfree _ (by omega) ?_⟩
      rw [if_pos rfl] at hk
      omega

theorem pageAllocFinish_fst (flags : BitVec 32) (pp : ℕ) (s : Mm) :
    Ends (fun _ => True) (fun r => r.1 = some pp) (pageAllocFinish flags (some pp) s) := by
  unfold pageAllocFinish
  refine ends_ite (fun _ => True.intro) fun _ => ?_
  rw [ends_bind]
  have hk : ∀ (x : Except Crash Mm) (Q : Mm → Prop), (∀ a, Q a) → Ends (fun _ => True) Q x := by
    intro x Q hQ
    cases x with
    | error c => exact True.intro
    | ok a => exact hQ a
  refine hk _ _ fun s₁ => ?_
  exact Ends.ite_bind (hk _ _ fun s₂ => rfl)

/-- `page_alloc` hands out the head of the list. -/
theorem pageAlloc_head (hpre : m.premappedFlag = false) {flags : BitVec 32}
    (hh : flags &&& allocHuge = 0) :
    Ends (fun _ => True) (fun r => ∀ pp, r.1 = some pp → m.pageFreeList = some pp)
      (pageAlloc m flags) := by
  unfold pageAlloc
  refine ends_ite (fun _ pp hpp => nomatch hpp) fun hne => ?_
  rw [if_neg (not_not_intro hh), if_neg (by rw [hpre]; exact Bool.false_ne_true)]
  unfold removeHeadPfl
  cases hhd : m.pageFreeList with
  | none => exact absurd hhd hne
  | some hd =>
      dsimp only
      rw [ends_bind]
      refine ends_ite (fun _ => True.intro) fun _ => ?_
      rw [ends_bind]
      refine ends_ite (fun _ => True.intro) fun _ => ?_
      refine (pageAllocFinish_fst flags hd _).post fun r hr pp hpp => ?_
      rw [hr] at hpp
      exact hpp

/-- **What `page_dedup` gets from `page_alloc`.** -/
theorem pageAlloc_copy (h : AllocInv m live l) (hdrift : drift m l = 0)
    (hpre : m.premappedFlag = false) (huge : Bool) :
    Ends (fun _ => False)
      (fun r => (r = (none, m) ∧ (m.pageFreeList = none ∨ huge = true ∧ findHugePage m = none)) ∨
        ∃ pgn, r.1 = some pgn ∧ CopyFrame m r.2 huge pgn)
      (pageAlloc m (if huge then allocHuge else allocZero)) := by
  by_cases hlist : m.pageFreeList = none
  · rw [pageAlloc, if_pos hlist]
    exact Or.inl ⟨rfl, Or.inl hlist⟩
  cases huge with
  | true =>
      rw [pageAlloc, if_neg hlist, if_pos (by decide)]
      refine (pageAllocHuge_copy h hdrift hlist).post ?_
      rintro r (⟨hr, hnone⟩ | hr)
      · exact Or.inl ⟨hr, Or.inr ⟨rfl, hnone⟩⟩
      · exact Or.inr hr
  | false =>
      rw [if_neg Bool.false_ne_true]
      have hsafe : Ends (fun _ => False) (fun _ => True) (pageAlloc m allocZero) := by
        refine (pageAlloc_ends allocZero h).mono ?_ fun _ _ => True.intro
        rintro c (hc | ⟨-, hh, -⟩ | ⟨-, -, hmapped, -⟩)
        · exact hc.2.1 hdrift
        · exact hh (by decide)
        · rw [hpre] at hmapped
          exact Bool.false_ne_true hmapped
      have htaken :=
        pageAlloc_taken h.freeInv (show allocZero &&& allocHuge = 0 by decide) (by decide)
      have hall :=
        (hsafe.and htaken).and (pageAlloc_head hpre (show allocZero &&& allocHuge = 0 by decide))
      refine hall.mono (fun _ hf => hf.1.1) ?_
      rintro r ⟨⟨-, ⟨hr, hnil⟩ | ⟨pgn, hpgn, hr, ht, -, -⟩⟩, hhead⟩
      · exact absurd (h.chain.eq_nil_iff.1 hnil) hlist
      · have hflags := (h.listed pgn hpgn).2.2.1
        have hno : (m.pages pgn).has alloc = false := by
          rw [PageInfo.has, hflags]
          decide
        refine Or.inr ⟨pgn, hr, hlist, fun _ => hhead pgn hr, fun hf => (by cases hf), ht.npages,
          ht.ref, fun f hf => ?_,
          fun hf => (by cases hf), (h.listed pgn hpgn).2.1, fun k hk => ?_⟩
        · refine ht.mem f ?_
          rintro rfl
          rw [hno] at hf
          exact Bool.false_ne_true hf
        · obtain rfl : k = 0 := by
            rw [if_neg Bool.false_ne_true] at hk
            omega
          exact hno

end Alloc

/-! ### The function -/

section Dedup

variable {s : Vm} {e d v : ℕ} {va : BitVec 32} {p : PtePtr} {live : List Block} {l : List ℕ}

namespace CowFault

theorem walk (h : CowFault s e d v va p) :
    pgdirWalk s (s.pgdir e) va .normal = .ok (some p, s) := by
  have hcreate : (Create.normal == Create.huge) = false := rfl
  rw [h.dir, pgdirWalk]
  dsimp only
  rw [if_pos h.pde, hcreate, walkEnd, Bool.false_or]
  rcases h.entry with ⟨hhuge, rfl⟩ | ⟨hsmall, rfl, -, hlt, -⟩
  · rw [if_pos hhuge]
    rfl
  · have hk : ¬ s.mm.npages ≤ pgnum (pteAddr (s.pte ⟨d, pdx va⟩)) := by
      rw [pgnum_pteAddr]
      exact Nat.not_le.2 hlt
    rw [hsmall, if_neg Bool.false_ne_true, kaddr, if_neg hk, pgnum_pteAddr]
    rfl

/-- After a write to the entry, the one in the directory is the same or has the new value. -/
theorem pde_write (h : CowFault s e d v va p) {s' : Vm} {w : BitVec 32} (hp : s'.pte p = w)
    (hd : p.frame ≠ d → s'.pte ⟨d, pdx va⟩ = s.pte ⟨d, pdx va⟩) :
    isHuge (s'.pte ⟨d, pdx va⟩) = isHuge (s.pte ⟨d, pdx va⟩) ↔
      (isHuge (s.pte p) = true → isHuge w = true) := by
  rcases h.entry with ⟨hhuge, rfl⟩ | ⟨hsmall, -, hne, -, hp'⟩
  · rw [hp, hhuge]
    exact ⟨fun h _ => h, fun h => h rfl⟩
  · rw [hd hne, hp']
    exact ⟨fun _ hf => (nomatch hf), fun _ => rfl⟩

theorem pa2page_eq (h : CowFault s e d v va p) :
    pa2page s.mm.npages (pteAddr (s.pte p)) = .ok (pgnum (s.pte p)) := by
  rw [pa2page, pgnum_pteAddr, if_neg (Nat.not_le.2 h.frame)]
  rfl

/-- The frame is not shared. -/
theorem dedup_sole (h : CowFault s e d v va p) (href : s.ref (pgnum (s.pte p)) = 1) :
    pageDedup s e va = .ok (true, s.writePte p va (pgnum (s.pte p)) (s.pte p ||| pteW)) := by
  rw [pageDedup, h.area, h.walk]
  change (pa2page s.mm.npages (pteAddr (s.pte p)) >>= fun pg => _) = _
  rw [h.pa2page_eq]
  exact if_pos href

end CowFault

/-- The state after a copy into the frame `pgn`, which was taken in the memory `m`. -/
def copied (s : Vm) (m : Mm) (va perm : BitVec 32) (p : PtePtr) (pg pgn : ℕ) : Vm :=
  let s := { s with mm := { m with mem := Function.update m.mem pgn (m.mem pg) } }
  let s := s.writePte p va pgn (page2pa pgn ||| perm ||| pteP)
  s.setRef pgn (s.ref pgn + 1)

/-- **The frame is shared**: its reference is dropped, and then there is no frame for a copy, or
there is one. -/
theorem CowFault.dedup_shared (h : CowFault s e d v va p) (hinv : AllocInv s.mm live l)
    (hdrift : drift s.mm l = 0) (hpre : s.mm.premappedFlag = false)
    (href : s.ref (pgnum (s.pte p)) ≠ 1) :
    Ends (fun _ => False)
      (fun r => (r = (false, s.setRef (pgnum (s.pte p)) (s.ref (pgnum (s.pte p)) - 1)) ∧
          (s.mm.pageFreeList = none ∨ isHuge (s.pte p) = true ∧ findHugePage s.mm = none)) ∨
        ∃ pgn m, CopyFrame (s.setRef (pgnum (s.pte p)) (s.ref (pgnum (s.pte p)) - 1)).mm m
          (isHuge (s.pte p)) pgn ∧
          r = (true, copied s m va (s.vma e v).perm p (pgnum (s.pte p)) pgn))
      (pageDedup s e va) := by
  have hnl : pgnum (s.pte p) ∉ l := by
    intro hmem
    have halloc := h.frameUsed
    rw [PageInfo.has, (hinv.listed _ hmem).2.2.1] at halloc
    exact absurd halloc (by decide)
  have hinv₁ := hinv.setRef hnl (s.ref (pgnum (s.pte p)) - 1)
  have hfind : findHugePage (s.setRef (pgnum (s.pte p)) (s.ref (pgnum (s.pte p)) - 1)).mm =
      findHugePage s.mm :=
    findHugePage_congr rfl fun i => Vm.flags_setRef ..
  rw [pageDedup, h.area, h.walk]
  change Ends _ _ (pa2page s.mm.npages (pteAddr (s.pte p)) >>= fun pg => _)
  rw [h.pa2page_eq]
  change Ends _ _ (if s.ref (pgnum (s.pte p)) = 1 then _ else if s.ref (pgnum (s.pte p)) =
    0 then _ else _)
  rw [if_neg href, if_neg h.counted, ends_bind]
  refine (pageAlloc_copy hinv₁ hdrift hpre (isHuge (s.pte p))).post ?_
  rintro ⟨r, m⟩ (⟨heq, hnone⟩ | ⟨pgn, hr, hc⟩)
  · obtain ⟨rfl, rfl⟩ := Prod.mk.injEq .. ▸ heq
    refine Or.inl ⟨rfl, ?_⟩
    rw [← hfind]
    exact hnone
  · obtain rfl : r = some pgn := hr
    have hc : CopyFrame _ m (isHuge (s.pte p)) pgn := hc
    have hlt : pgn < m.npages := hc.npages.symm ▸ hc.lt
    have hold : pgnum (s.pte p) < m.npages := hc.npages.symm ▸ h.frame
    dsimp only
    rw [copyPage, kaddr_page2pa hlt, kaddr_page2pa hold]
    exact Or.inr ⟨pgn, m, hc, rfl⟩

/-- The page was not shared: what the function does is right if the program may use the page. -/
theorem CowFault.sole_meets_iff (h : CowFault s e d v va p) (href : s.ref (pgnum (s.pte p)) = 1) :
    DedupMeets s l d va (s.vma e v).perm p
      (true, s.writePte p va (pgnum (s.pte p)) (s.pte p ||| pteW)) ↔
      isUser (s.pte p) = isUser (s.vma e v).perm := by
  obtain ⟨s', hs'⟩ : ∃ s', s' = s.writePte p va (pgnum (s.pte p)) (s.pte p ||| pteW) := ⟨_, rfl⟩
  have hp : s'.pte p = s.pte p ||| pteW := by
    rw [hs']
    exact (Vm.word_writePte ..).trans (if_pos ⟨rfl, rfl⟩)
  have hpde : p.frame ≠ d → s'.pte ⟨d, pdx va⟩ = s.pte ⟨d, pdx va⟩ := by
    intro hne
    rw [hs']
    exact (Vm.word_writePte ..).trans (if_neg fun hc => hne hc.1.symm)
  have hperm : s'.pte p &&& (pteW ||| pteU) = (s.vma e v).perm &&& (pteW ||| pteU) ↔
      isUser (s.pte p) = isUser (s.vma e v).perm := by
    have huser : isUser (s.pte p ||| pteW) = isUser (s.pte p) := by
      rw [isUser, or_flag_and (by decide)]
      rfl
    rw [hp, and_perm_eq_iff, isWritable_or_pteW, h.writable, huser]
    exact and_iff_right rfl
  rw [← hs', DedupMeets, if_pos rfl]
  refine ⟨fun hdone => hperm.1 hdone.perm, fun huser =>
    ⟨?_, (h.pde_write hp hpde).2 ?_, hperm.2 huser, Or.inl ⟨href, ?_, ?_⟩⟩⟩
  · change isPresent (s'.pte p) = true
    rw [hp, isPresent, or_flag_and (by decide)]
    exact h.present
  · intro hhuge
    rw [isHuge, or_flag_and (by decide)]
    exact hhuge
  · change pgnum (s'.pte p) = _
    rw [hp, ← pgnum_pteAddr, pteAddr, or_flag_and (by decide), ← pteAddr, pgnum_pteAddr]
  · rw [hs']
    exact href

/-- A shared page of which a copy was made. -/
structure CopyState (s s' : Vm) (d : ℕ) (va perm : BitVec 32) (p : PtePtr) (pgn : ℕ) : Prop where
  pte : s'.pte p = page2pa pgn ||| perm ||| pteP
  pde : p.frame ≠ d → s'.pte ⟨d, pdx va⟩ = s.pte ⟨d, pdx va⟩
  new : s'.ref pgn = s.ref pgn + 1
  old : s'.ref (pgnum (s.pte p)) = s.ref (pgnum (s.pte p)) - 1
  other : ∀ f, f ≠ pgn → f ≠ pgnum (s.pte p) → s'.ref f = s.ref f
  first : s'.mm.mem pgn = s.mm.mem (pgnum (s.pte p))
  rest : ∀ k, 0 < k → k < extent (s.pte p) → s'.mm.mem (pgn + k) = s.mm.mem (pgn + k)

theorem CowFault.copyState (h : CowFault s e d v va p) {m : Mm} {pgn : ℕ}
    (hc : CopyFrame (s.setRef (pgnum (s.pte p)) (s.ref (pgnum (s.pte p)) - 1)).mm m
      (isHuge (s.pte p)) pgn)
    (perm : BitVec 32) : CopyState s (copied s m va perm p (pgnum (s.pte p)) pgn) d va
      perm p pgn := by
  have hfree : ∀ k < extent (s.pte p), (s.mm.pages (pgn + k)).has alloc = false := by
    intro k hk
    have := hc.free k hk
    rw [PageInfo.has, Vm.flags_setRef] at this
    exact this
  have hkeep : ∀ f, (s.mm.pages f).has alloc = true → m.mem f = s.mm.mem f := by
    intro f hf
    refine hc.mem f ?_
    rw [PageInfo.has, Vm.flags_setRef]
    exact hf
  have hused : ∀ f, (s.mm.pages f).has alloc = true → ∀ k < extent (s.pte p), f ≠ pgn + k := by
    rintro f hf k hk rfl
    rw [hfree k hk] at hf
    exact Bool.false_ne_true hf
  have hext : 0 < extent (s.pte p) := by
    unfold extent
    split <;> decide
  have hne : pgnum (s.pte p) ≠ pgn := hused _ h.frameUsed 0 hext
  have hnp : p.frame ≠ pgn := hused _ h.tableUsed 0 hext
  have hnd : d ≠ pgn := hused _ h.dirUsed 0 hext
  have hmref : ∀ f, (m.pages f).ppRef = if f = pgnum (s.pte p) then s.ref (pgnum (s.pte p)) - 1
      else s.ref f :=
    fun f => (hc.ref f).trans (Vm.ppRef_setRef ..)
  have hnew : (copied s m va perm p (pgnum (s.pte p)) pgn).ref pgn = (m.pages pgn).ppRef + 1 :=
    (Vm.ppRef_setRef ..).trans (if_pos rfl)
  have hother : ∀ f ≠ pgn, (copied s m va perm p (pgnum (s.pte p)) pgn).ref f = (m.pages f).ppRef :=
    fun f hf => (Vm.ppRef_setRef ..).trans (if_neg hf)
  refine ⟨?_, fun hpd => ?_, ?_, ?_, fun f h₁ h₂ => ?_, ?_, fun k h₀ hk => ?_⟩
  · exact (Mm.word_setWord ..).trans (if_pos ⟨rfl, rfl⟩)
  · refine (Mm.word_setWord ..).trans
      ((if_neg fun hcc => hpd hcc.1.symm).trans (Mm.word_of_mem ?_ _))
    exact (Function.update_of_ne hnd ..).trans (hkeep d h.dirUsed)
  · rw [hnew, hmref, if_neg hne.symm]
  · rw [hother _ hne, hmref, if_pos rfl]
  · rw [hother f h₁, hmref, if_neg h₂]
  · refine (Function.update_of_ne hnp.symm ..).trans ((Function.update_self ..).trans ?_)
    exact hkeep _ h.frameUsed
  · have hhuge : isHuge (s.pte p) = true := by
      by_contra hsmall
      rw [extent, if_neg hsmall] at hk
      omega
    have hnk : pgn + k ≠ pgn := by omega
    refine (Function.update_of_ne (hused _ h.tableUsed k hk).symm ..).trans
      ((Function.update_of_ne hnk ..).trans ?_)
    exact congrFun (hc.whole hhuge) _

/-- The page was shared, and a copy was made into `pgn`. -/
theorem CowFault.copy_meets_iff (h : CowFault s e d v va p) (hinv : AllocInv s.mm live l)
    (href : s.ref (pgnum (s.pte p)) ≠ 1) {s' : Vm} {pgn : ℕ}
    (hs' : CopyState s s' d va (s.vma e v).perm p pgn) :
    DedupMeets s l d va (s.vma e v).perm p (true, s') ↔
      (isHuge (s.pte p) = true → isHuge (s.vma e v).perm = true) ∧
        pgnum (page2pa pgn ||| (s.vma e v).perm ||| pteP) = pgn ∧ pgn ∈ l ∧
        ∀ k, 0 < k → k < extent (s.pte p) →
          s.mm.mem (pgn + k) = s.mm.mem (pgnum (s.pte p) + k) := by
  have hnl : pgnum (s.pte p) ∉ l := by
    intro hmem
    have halloc := h.frameUsed
    rw [PageInfo.has, (hinv.listed _ hmem).2.2.1] at halloc
    exact absurd halloc (by decide)
  have hzero : ∀ f ∈ l, s.ref f = 0 := fun f hf => (hinv.listed f hf).2.2.2
  have hsize := h.pde_write hs'.pte hs'.pde
  have hps : isHuge (page2pa pgn ||| (s.vma e v).perm ||| pteP) = isHuge (s.vma e v).perm := by
    rw [isHuge, copyPte_and _ _ (by decide) (by decide)]
    rfl
  rw [hps] at hsize
  rw [DedupMeets, if_pos rfl]
  constructor
  · intro hdone
    obtain ⟨-, hmem, hbytes, -, hone⟩ := hdone.frame.resolve_left fun hc => href hc.1
    change pgnum (s'.pte p) ∈ l at hmem
    change s'.ref (pgnum (s'.pte p)) = 1 at hone
    -- a free frame that is not the one for the copy has no reference
    have heq : pgnum (s'.pte p) = pgn := by
      by_contra hne
      rw [hs'.other _ hne fun hc => hnl (hc ▸ hmem), hzero _ hmem] at hone
      exact absurd hone (by decide)
    refine ⟨hsize.1 hdone.size, hs'.pte ▸ heq, heq ▸ hmem, fun k h₀ hk => ?_⟩
    rw [← hs'.rest k h₀ hk, ← heq]
    exact hbytes k hk
  · rintro ⟨hhuge, heq, hmem, hbytes⟩
    have hpg : pgnum (s'.pte p) = pgn := hs'.pte ▸ heq
    refine ⟨?_, hsize.2 hhuge, ?_, Or.inr ⟨href, hpg.symm ▸ hmem, fun k hk => ?_, hs'.old, ?_⟩⟩
    · change isPresent (s'.pte p) = true
      rw [hs'.pte]
      exact isPresent_or_pteP _
    · change s'.pte p &&& _ = _
      rw [hs'.pte, copyPte_and _ _ (by decide) (by decide)]
    · change s'.mm.mem (pgnum (s'.pte p) + k) = _
      rw [hpg]
      rcases Nat.eq_zero_or_pos k with rfl | h₀
      · exact hs'.first
      · rw [hs'.rest k h₀ hk, hbytes k h₀ hk]
    · change s'.ref (pgnum (s'.pte p)) = 1
      rw [hpg, hs'.new, hzero pgn hmem]
      rfl

/-- Without a frame for the copy, the reference is gone all the same. -/
theorem not_meets_of_failed (s : Vm) (l : List ℕ) (d : ℕ) (va perm : BitVec 32)
    (p : PtePtr) (pg : ℕ) :
    ¬ DedupMeets s l d va perm p (false, s.setRef pg (s.ref pg - 1)) := by
  intro hmeets
  rw [DedupMeets, if_neg Bool.false_ne_true] at hmeets
  have hdrop : s.ref pg - 1 = s.ref pg := by
    refine Eq.trans ?_ (hmeets.2 pg)
    exact ((Vm.ppRef_setRef ..).trans (if_pos rfl)).symm
  bv_omega

end Dedup

/-- **When `page_dedup` is correct and leaves nothing behind when it fails.** -/
theorem pageDedup_meets_iff (s : Vm) (e d v : ℕ) (va : BitVec 32) (p : PtePtr) (live : List Block)
    (l : List ℕ) (h : CowFault s e d v va p) (hinv : AllocInv s.mm live l)
    (hdrift : drift s.mm l = 0) (hpre : s.mm.premappedFlag = false) :
    ∃ r, pageDedup s e va = .ok r ∧
      (DedupMeets s l d va (s.vma e v).perm p r ↔ DedupFits s l (s.vma e v).perm p) := by
  by_cases href : s.ref (pgnum (s.pte p)) = 1
  · refine ⟨_, h.dedup_sole href,
      (h.sole_meets_iff href).trans ⟨fun huser => Or.inl ⟨href, huser⟩, ?_⟩⟩
    rintro (⟨-, huser⟩ | ⟨hne, -⟩ | ⟨hne, -⟩)
    · exact huser
    · exact absurd href hne
    · exact absurd href hne
  have hend := h.dedup_shared hinv hdrift hpre href
  cases hr : pageDedup s e va with
  | error c => exact (hend.of_error hr).elim
  | ok r =>
      refine ⟨r, rfl, ?_⟩
      rcases hend.of_ok hr with ⟨rfl, hnone⟩ | ⟨pgn, m, hc, rfl⟩
      · refine ⟨fun hm => (not_meets_of_failed _ _ _ _ _ _ _ hm).elim, ?_⟩
        rintro (⟨hone, -⟩ | ⟨-, hsmall, pgn, hhead, -⟩ | ⟨-, -, hlist, -, pgn, -, hfind, -⟩)
        · exact absurd hone href
        · rcases hnone with hnone | ⟨hhuge, -⟩
          · rw [hhead] at hnone
            exact nomatch hnone
          · rw [hsmall] at hhuge
            exact nomatch hhuge
        · rcases hnone with hnone | ⟨-, hnone⟩
          · exact absurd hnone hlist
          · rw [hfind] at hnone
            exact nomatch hnone
      · rw [h.copy_meets_iff hinv href (h.copyState hc _)]
        have hfind : findHugePage (s.setRef (pgnum (s.pte p)) (s.ref (pgnum (s.pte p)) - 1)).mm =
            findHugePage s.mm :=
          findHugePage_congr rfl fun i => Vm.flags_setRef ..
        cases hsize : isHuge (s.pte p) with
        | false =>
            rw [hsize] at hc
            have hhead : s.mm.pageFreeList = some pgn := hc.head rfl
            have hmem : pgn ∈ l := by
              have hchain := hinv.chain
              rw [hhead] at hchain
              obtain ⟨l', rfl, -⟩ := chain_some.1 hchain
              exact List.mem_cons_self
            constructor
            · rintro ⟨-, heq, -, -⟩
              exact Or.inr (Or.inl ⟨href, hsize, pgn, hhead, heq⟩)
            · rintro (⟨hone, -⟩ | ⟨-, -, pgn', hhead', heq⟩ | ⟨-, hhuge, -⟩)
              · exact absurd hone href
              · obtain rfl : pgn = pgn' := Option.some.inj (hhead.symm.trans hhead')
                refine ⟨fun hf => (nomatch hf), heq, hmem, fun k h₀ hk => ?_⟩
                rw [extent, hsize, if_neg Bool.false_ne_true] at hk
                omega
              · rw [hsize] at hhuge
                exact nomatch hhuge
        | true =>
            rw [hsize] at hc
            have hblock : findHugePage s.mm = some pgn := hfind ▸ hc.block rfl
            have hext : extent (s.pte p) = kb := by rw [extent, hsize, if_pos rfl]
            rw [hext]
            constructor
            · rintro ⟨hps, heq, hmem, hbytes⟩
              exact Or.inr (Or.inr ⟨href, hsize, hc.listed, hps rfl, pgn, hmem,
                hblock, heq, hbytes⟩)
            · rintro (⟨hone, -⟩ | ⟨-, hsmall, -⟩ | ⟨-, -, -, hps, pgn', hmem, hblock', heq, hbytes⟩)
              · exact absurd hone href
              · rw [hsize] at hsmall
                exact nomatch hsmall
              · obtain rfl : pgn = pgn' := Option.some.inj (hblock.symm.trans hblock')
                exact ⟨fun _ => hps, heq, hmem, hbytes⟩

/-! ### A shared page and no free frame -/

/-- Every frame is in use twice: the directory in frame 1, a page table in frame 2 and the page at
`0x1000` in frame 3. -/
def sharedVm : Vm :=
  let s := Vm.ofWords 4 frames_four
    (fun f i => if f = 1 ∧ i = 0 then 0x2007#32 else if f = 2 ∧ i = 1 then 0x3005#32 else 0)
      fun _ =>
      { Space.ofDir 1 with
        vmas := fun _ => ⟨.anon, 0x1000, 0x1000, pteW ||| pteU, none, 0, 0, 0, false⟩,
          allocVmaList := some 0 }
  { s with mm := { s.mm with premappedFlag := false, pages := fun _ => ⟨none, none, 2, alloc⟩ } }

theorem sharedVm_word (f i : ℕ) : sharedVm.mm.word f i =
    if f = 1 ∧ i = 0 then 0x2007#32 else if f = 2 ∧ i = 1 then 0x3005#32 else 0 :=
  Mm.word_bytesOf (w := fun f i => if f = 1 ∧ i = 0 then 0x2007#32 else if f = 2 ∧
    i = 1 then 0x3005#32 else 0) rfl i

theorem sharedVm_cowFault : CowFault sharedVm 0 1 0 0x1000 ⟨2, 1⟩ := by
  have hpde : sharedVm.pte ⟨1, pdx 0x1000⟩ = 0x2007#32 := sharedVm_word 1 0
  have hpte : sharedVm.pte ⟨2, 1⟩ = 0x3005#32 := sharedVm_word 2 1
  refine ⟨rfl, rfl, by decide, ?_, Or.inr ⟨?_, ?_, by decide, by decide, ?_⟩, ?_,
    ?_, by decide, by decide, ?_, ?_, ?_⟩
  · rw [hpde]; decide
  · rw [hpde]; decide
  · rw [hpde]; decide
  · rw [hpte]; decide
  · rw [hpte]; decide
  · rw [hpte]; decide
  · rw [hpte]; decide
  · rfl
  · exact (by decide : (2 : BitVec 16) ≠ 0)

theorem sharedVm_allocInv : AllocInv sharedVm.mm [] [] where
  chain := rfl
  listed _ hi := (List.not_mem_nil hi).elim
  aligned _ hb := (List.not_mem_nil hb).elim
  low _ hb := (List.not_mem_nil hb).elim
  bound _ hb := (List.not_mem_nil hb).elim
  held _ hb := (List.not_mem_nil hb).elim
  apart := List.Pairwise.nil
  rest _ _ _ := ⟨rfl, Or.inr rfl⟩
  hole := ⟨rfl, fun _ hb => (List.not_mem_nil hb).elim⟩

theorem pageDedup_meets_iff_shared :
    (CowFault sharedVm 0 1 0 0x1000 ⟨2, 1⟩ ∧ AllocInv sharedVm.mm [] [] ∧ drift sharedVm.mm [] = 0 ∧
      sharedVm.mm.premappedFlag = false) ∧
    ∃ r, pageDedup sharedVm 0 0x1000 = .ok r ∧
      (DedupMeets sharedVm [] 1 0x1000 (sharedVm.vma 0 0).perm ⟨2, 1⟩ r ↔
        DedupFits sharedVm [] (sharedVm.vma 0 0).perm ⟨2, 1⟩) :=
  ⟨⟨sharedVm_cowFault, sharedVm_allocInv, rfl, rfl⟩,
    pageDedup_meets_iff sharedVm 0 1 0 0x1000 ⟨2, 1⟩ [] [] sharedVm_cowFault sharedVm_allocInv rfl
      rfl⟩

/-- With no free frame `page_dedup` returns 0 and has dropped a reference. -/
theorem pageDedup_drops_reference :
    ¬ ∀ (s : Vm) (e d v : ℕ) (va : BitVec 32) (p : PtePtr) (live : List Block) (l : List ℕ),
      CowFault s e d v va p → AllocInv s.mm live l → drift s.mm l = 0 → s.mm.premappedFlag = false →
        ∀ r, pageDedup s e va = .ok r → DedupMeets s l d va (s.vma e v).perm p r := by
  intro hall
  have hend := sharedVm_cowFault.dedup_shared sharedVm_allocInv rfl rfl (by
    exact (by decide : (2 : BitVec 16) ≠ 1))
  cases hr : pageDedup sharedVm 0 0x1000 with
  | error c => exact (hend.of_error hr).elim
  | ok r =>
      have hmeets := hall _ _ _ _ _ _ _ _ sharedVm_cowFault sharedVm_allocInv rfl rfl r hr
      rcases hend.of_ok hr with ⟨rfl, -⟩ | ⟨pgn, m, hc, -⟩
      · exact not_meets_of_failed _ _ _ _ _ _ _ hmeets
      · exact hc.listed rfl

end Jos
