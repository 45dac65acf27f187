/-
**Filling an area at once.**

`vma_populate` is to do for all pages of a range what the first access to each of them would do. But
the page that a round gets from `page_alloc` is kept in a variable of an inner block, and
`page_insert` gets the outer variable of the same name, which is `NULL`: with a free frame the
kernel panics, and without one `vma_populate` gives up, and `sys_vma_create` leaves the new area
behind.

Main definitions:

* `Jos.Touched` — the pages of a range are accessed one after the other;
* `Jos.Vm.userByte` — what a program sees of its memory;
* `Jos.FilledLikeTouched` — the range is filled as it would be by accesses;
* `Jos.PopulateSite` — a range of absent pages inside an anonymous area;
* `Jos.CreatedHere` — `sys_vma_create` has just made the area and comes to `vma_populate`;
* `Jos.PopulateMeets` — what is expected of `vma_populate` and of `sys_vma_create` behind it.

Main results:

* `Jos.vmaPopulate_never_fills` — no range with a page is filled;
* `Jos.vmaPopulate_stuck` — with a free frame the call does not return;
* `Jos.populates_iff` — **populating does what it should** for the empty range, and for a range
  without any free frame unless the area is new.
-/

import JosKernel.Descriptors
import JosKernel.Walks

set_option relaxedAutoImplicit false
set_option autoImplicit false

namespace Jos

open LinkedList Outcome

/-! ### Touching a range -/

/-- **The first `n` pages from `va` on are accessed one after the other**, and every access is a
fault that gets a page. -/
inductive Touched (s : Vm) (e : ℕ) (va : BitVec 32) : ℕ → Vm → Prop
  | none : Touched s e va 0 s
  | next {n : ℕ} {s₁ s₂ : Vm} : Touched s e va n s₁ →
    allocPageAfterFault s₁ e (pageAt va n) = .ok (.resumed, s₂) →
      Touched s e va (n + 1) s₂

/-- What a program sees at an address: whether it may write there, and the byte. -/
def Vm.userByte (s : Vm) (e : ℕ) (a : BitVec 32) : Option (Bool × BitVec 8) :=
  match mmu s e a true false with
  | .frame f => some (mmu s e a true true == .frame f, s.byte f (pgoff a))
  | _ => none

/-- The page `k` of the range is present with the permissions, in a frame that was free and reads as
zero. -/
def FilledPage (s' : Vm) (d : ℕ) (va perm : BitVec 32) (l : List ℕ) (k f : ℕ) : Prop :=
  s'.mm.leaf d (vpn (pageAt va k)) = some (page2pa f ||| (perm ||| pteU) ||| pteP, false) ∧ f ∈ l ∧
    ∀ o < pgSize, s'.byte f o = 0

/-- **The range is filled as it would be by accesses**: `vma_populate` returns 1, every page is
there, in frames of their own, and both the memory that the program sees and the counter of its
pages are what they are after touching the pages. -/
def FilledLikeTouched (s : Vm) (e d : ℕ) (va size perm : BitVec 32) (l : List ℕ) : Prop :=
  ∃ s₁ s₂, vmaPopulate s e va size perm false = .ok (true, s₁) ∧
    Touched s e va (pageCount size) s₂ ∧
    (∃ f : ℕ → ℕ, (∀ k < pageCount size, FilledPage s₁ d va perm l k (f k)) ∧
      ∀ k < pageCount size, ∀ j < pageCount size, f k = f j → k = j) ∧
    (s₁.envs e).allocPages = (s₂.envs e).allocPages ∧ ∀ a < uTop, s₁.userByte e a = s₂.userByte e a

/-- The page tables that the range needs and that are not there. -/
def tablesMissing (m : Mm) (d : ℕ) (va : BitVec 32) (n : ℕ) : ℕ :=
  ((List.range nPdEntries).filter fun j =>
    !isPresent (m.word d j) && (List.range n).any fun k => vpn (pageAt va k) / 1024 == j).length

/-- There are frames for the pages and for the page tables. -/
def EnoughFrames (s : Vm) (d : ℕ) (va size : BitVec 32) (l : List ℕ) : Prop :=
  pageCount size + tablesMissing s.mm d va (pageCount size) ≤ l.length

/-! ### What is expected -/

/-- **A range of absent pages inside an anonymous area** of small pages, with the permissions of the
area. -/
structure PopulateSite (s : Vm) (e d i : ℕ) (va size perm : BitVec 32) (l : List ℕ) : Prop where
  dir : s.pgdir e = some d
  used : Visits (s.envs e).link (s.envs e).allocVmaList i
  anon : (s.vma e i).type = .anon
  small : (s.vma e i).hps = false
  perms : (s.vma e i).perm = perm ∨ (s.vma e i).perm = perm ||| pteU
  unset : isPresent perm = false
  page : va.toNat % 4096 = 0
  inside : (s.vma e i).va.toNat ≤ va.toNat ∧ va.toNat + pagesOf size ≤ (s.vma e i).va.toNat +
    (s.vma e i).len.toNat
  low : (s.vma e i).va.toNat + (s.vma e i).len.toNat ≤ uTop.toNat
  absent : ∀ k < pageCount size, ∀ w b, s.mm.leaf d (vpn (pageAt va k)) = some (w, b) →
    isPresent w = false
  free : FreeInv s.mm l

/-- **`sys_vma_create` in the state `s₀` has made the area `i`** and comes to `vma_populate` in the
state `s`. -/
structure CreatedHere (s₀ s : Vm) (e i : ℕ) (va size perm flags : BitVec 32) : Prop where
  lists : VmaOk (s₀.envs e)
  flags : flags &&& mapPopulate ≠ 0 ∧ flags &&& mapHugepages = 0
  spot : vmaFindSpot (s₀.envs e) size = .ok va
  made : (s₀.onSpace e fun sp => vmaNew sp va size .anon 0 0 0 (perm ||| pteU)) = .ok (.made i, s)

/-- The descriptors in use are the same. -/
def SameAreas (sp sp' : Space) : Prop :=
  ∀ j, Visits sp'.link sp'.allocVmaList j ↔ Visits sp.link sp.allocVmaList j

/-- **What is expected of `vma_populate`**: with enough frames the range is filled; without, the
call returns 0, and a `sys_vma_create` that came to it returns -1 and leaves no area behind. -/
structure PopulateMeets (s : Vm) (e d i : ℕ) (va size perm : BitVec 32) (l : List ℕ) : Prop where
  filled : EnoughFrames s d va size l → FilledLikeTouched s e d va size perm l
  refused : ¬ EnoughFrames s d va size l → ∃ s', vmaPopulate s e va size perm false =
    .ok (false, s')
  undone : ¬ EnoughFrames s d va size l → ∀ s₀ flags, CreatedHere s₀ s e i va size perm flags →
    ∃ s', createVm s₀ e size perm flags = .ok (-1, s') ∧ SameAreas (s₀.envs e) (s'.envs e)

/-! ### The call -/

section

variable {s : Vm} {e d i : ℕ} {va size perm : BitVec 32} {l : List ℕ}

/-- The pages of a range that does not run over the end of the address space. -/
theorem PopulateSite.count (h : PopulateSite s e d i va size perm l) :
    size.toNat ≤ 0xfffff000 ∧ pageCount size = pagesOf size / 4096 := by
  have hlow := h.low
  have hin := h.inside
  have hU : uTop.toNat = 4005560320 := rfl
  have hle : pagesOf size ≤ 4005560320 := by omega
  have hsize : size.toNat ≤ 0xfffff000 := by
    rw [pagesOf] at hle
    omega
  refine ⟨hsize, ?_⟩
  rw [pageCount, toNat_roundUp hsize]
  rfl

theorem PopulateSite.pos (h : PopulateSite s e d i va size perm l) (hne : size ≠ 0) :
    0 < size.toNat ∧ 0 < pageCount size := by
  have hpos : 0 < size.toNat := Nat.pos_of_ne_zero fun hc => hne (BitVec.eq_of_toNat_eq hc)
  refine ⟨hpos, ?_⟩
  rw [h.count.2, pagesOf]
  omega

theorem vmaPopulate_eq :
    vmaPopulate s e va size perm false = populateFrom e va perm false (pageCount size) 0 s := by
  rw [vmaPopulate, if_neg Bool.false_ne_true, Nat.mul_one]
  rfl

/-- **No range with a page is filled.** -/
theorem vmaPopulate_never_fills (h : PopulateSite s e d i va size perm l)
    (hne : size ≠ 0) (s' : Vm) :
    vmaPopulate s e va size perm false ≠ .ok (true, s') := by
  intro hrun
  have hfails := (@vmaPopulate_fails e va size perm (h.pos hne).1 h.count.1 s).of_ok hrun
  exact absurd hfails.1 (by simp)

/-- **With a free frame the call does not return**: `page_insert` gets `NULL` for the page. -/
theorem vmaPopulate_stuck (h : PopulateSite s e d i va size perm l) (hne : size ≠ 0) (hl : l ≠ [])
    (r : Bool × Vm) :
    vmaPopulate s e va size perm false ≠ .ok r := by
  have hends : Ends (fun _ => True) (fun _ => False) (vmaPopulate s e va size perm false) := by
    obtain ⟨n, hn⟩ := Nat.exists_eq_succ_of_ne_zero (Nat.pos_iff_ne_zero.1 (h.pos hne).2)
    rw [vmaPopulate_eq, hn, populateFrom, ends_bind]
    refine (pageAlloc_taken h.free (by decide) (by decide)).mono (fun _ _ => True.intro) ?_
    rintro ⟨pg, mm⟩ (⟨-, hnil⟩ | ⟨pp, -, hpg, -⟩)
    · exact (hl hnil).elim
    · obtain rfl : pg = some pp := hpg
      dsimp only
      rw [ends_bind]
      unfold pageInsert
      cases Vm.pgdir _ e with
      | none => exact True.intro
      | some d => exact True.intro
  exact fun hrun => hends.of_ok hrun

/-- Without a free frame the call returns 0 and changes nothing. -/
theorem vmaPopulate_refuses (h : PopulateSite s e d i va size perm l) (hne : size ≠ 0)
    (hl : l = []) :
    vmaPopulate s e va size perm false = .ok (false, s) := by
  obtain ⟨n, hn⟩ := Nat.exists_eq_succ_of_ne_zero (Nat.pos_iff_ne_zero.1 (h.pos hne).2)
  have hnone : s.mm.pageFreeList = none := h.free.chain.eq_nil_iff.1 hl
  have halloc : pageAlloc s.mm (if false then allocHuge else 0) = .ok (none, s.mm) := by
    rw [pageAlloc, if_pos hnone]
    rfl
  rw [vmaPopulate_eq, hn, populateFrom, halloc]
  rfl

/-- The empty range is filled. -/
theorem populates_empty : PopulateMeets s e d i va 0 perm l := by
  have hzero : pageCount 0 = 0 := by decide
  have henough : EnoughFrames s d va 0 l := by
    rw [EnoughFrames, hzero, tablesMissing]
    simp
  refine ⟨fun _ => ⟨s, s, ?_, ?_, ⟨id, ?_, ?_⟩, rfl, fun _ _ => rfl⟩, fun hc => (hc henough).elim,
    fun hc => (hc henough).elim⟩
  · rw [vmaPopulate_eq, hzero]
    rfl
  · rw [hzero]
    exact .none
  · rw [hzero]
    exact fun k hk => (Nat.not_lt_zero k hk).elim
  · rw [hzero]
    exact fun k hk => (Nat.not_lt_zero k hk).elim

/-- The area that `sys_vma_create` has made was a free descriptor before. -/
theorem CreatedHere.place {s₀ : Vm} {flags : BitVec 32}
    (h : CreatedHere s₀ s e i va size perm flags) (hpage : va.toNat % 4096 = 0) :
    ∃ la lf, VmaInv (s₀.envs e) la (i :: lf) ∧
      NewAt (s₀.envs e) (s.envs e) i
        (newArea (s₀.envs e) i va size .anon 0 0 0 (perm ||| pteU)) := by
  obtain ⟨la, lf, hinv⟩ := h.lists
  obtain ⟨⟨r, sp'⟩, hnew, hrest⟩ := bind_eq_ok.1 h.made
  obtain ⟨hr, hs⟩ := Prod.mk.inj (Except.ok.inj hrest)
  dsimp only at hr hs hnew
  rw [hr] at hnew
  cases lf with
  | nil =>
      rw [vmaNew_empty hinv] at hnew
      split at hnew
      · cases (congrArg Prod.fst (Except.ok.inj hnew))
      · split at hnew
        · cases (congrArg Prod.fst (Except.ok.inj hnew))
        · cases hnew
  | cons el lf =>
      obtain ⟨_, _, sp₁, -, -, -, hmade, -, hplaced⟩ :=
        @vmaNew_place (s₀.envs e) el la lf hinv va size .anon 0 0 0 (perm ||| pteU) (by simp) hpage
      rw [hmade] at hnew
      obtain ⟨hel, hsp⟩ := Prod.mk.inj (Except.ok.inj hnew)
      obtain rfl : el = i := NewVma.made.inj hel
      refine ⟨la, lf, hinv, ?_⟩
      rw [← hs, Vm.modSpace_self, ← hsp]
      exact hplaced

/-- **A `sys_vma_create` that finds no frame** returns -1 and leaves its new area behind. -/
theorem CreatedHere.leaves (hsite : PopulateSite s e d i va size perm l) (hne : size ≠ 0)
    (hl : l = []) {s₀ : Vm} {flags : BitVec 32} (h : CreatedHere s₀ s e i va size perm flags) :
    createVm s₀ e size perm flags = .ok (-1, s) ∧ ¬ SameAreas (s₀.envs e) (s.envs e) := by
  constructor
  · have hmisfit : ¬ (flags &&& mapHugepages ≠ 0 ∧ size % BitVec.ofNat 32 (pgSize * kb) ≠ 0) :=
      fun hc => hc.1 h.flags.2
    rw [createVm, if_neg hmisfit, h.spot]
    change ((s₀.onSpace e fun sp => vmaNew sp va size .anon 0 0 0 (perm ||| pteU)) >>= _) = _
    rw [h.made]
    change createEnd s e i va size perm flags = _
    rw [createEnd, if_pos h.flags, vmaPopulate_refuses hsite hne hl]
    rfl
  · intro hsame
    obtain ⟨la, lf, hinv, -⟩ := h.place hsite.page
    have hbefore := (hsame i).1 hsite.used
    rw [hinv.alloc.visits_iff] at hbefore
    exact hinv.not_mem_free hbefore List.mem_cons_self

/-- **Populating does what it should** exactly for the empty range, and for a range without any free
frame unless the area has just been made by `sys_vma_create`. -/
theorem populates_iff (h : PopulateSite s e d i va size perm l) :
    PopulateMeets s e d i va size perm l ↔
      size = 0 ∨ l = [] ∧ ∀ s₀ flags, ¬ CreatedHere s₀ s e i va size perm flags := by
  by_cases hzero : size = 0
  · subst hzero
    exact ⟨fun _ => Or.inl rfl, fun _ => populates_empty⟩
  have hshort : l = [] → ¬ EnoughFrames s d va size l := by
    rintro rfl hc
    rw [EnoughFrames] at hc
    have hpos := (h.pos hzero).2
    simp at hc
    omega
  constructor
  · intro hpop
    refine Or.inr ?_
    have hnot : ¬ EnoughFrames s d va size l := by
      intro henough
      obtain ⟨s₁, -, hrun, -⟩ := hpop.filled henough
      exact vmaPopulate_never_fills h hzero s₁ hrun
    obtain ⟨s', hrun⟩ := hpop.refused hnot
    have hl : l = [] := by
      by_contra hl
      exact vmaPopulate_stuck h hzero hl _ hrun
    refine ⟨hl, fun s₀ flags hcreated => ?_⟩
    obtain ⟨s'', hcreate, hsame⟩ := hpop.undone hnot s₀ flags hcreated
    obtain ⟨hcreate', hleft⟩ := hcreated.leaves h hzero hl
    rw [hcreate'] at hcreate
    obtain rfl : s = s'' := congrArg Prod.snd (Except.ok.inj hcreate)
    exact hleft hsame
  · rintro (hc | ⟨hl, hold⟩)
    · exact (hzero hc).elim
    · exact ⟨fun hc => (hshort hl hc).elim, fun _ => ⟨s, vmaPopulate_refuses h hzero hl⟩,
        fun _ s₀ flags hcreated => (hold s₀ flags hcreated).elim⟩

end

/-! ### Two ranges -/

/-- The directory in the frame 1 has one page table, in the frame 2, and the table is empty. -/
def tableWords (f i : ℕ) : BitVec 32 := if f = 1 ∧ i = 0 then tablePde 2 else 0

/-- An environment with the area `[0x1000, 0x3000)`, where the frame 3 is free. -/
def Vm.oneFree : Vm :=
  let s :=
    Vm.ofWords 4 frames_four tableWords fun _ => Space.ofAreas (some 1) [userArea 0x1000 0x2000] 1
  { s with mm := { s.mm with pageFreeList := some 3, freePagesCount := 1 } }

theorem oneFree_word (f i : ℕ) : Vm.oneFree.mm.word f i = tableWords f i := Mm.word_bytesOf rfl i

theorem oneFree_leaf (k : ℕ) (h : k < 2) :
    Vm.oneFree.mm.leaf 1 (vpn (pageAt 0x1000 k)) = some (0, false) := by
  have hpages : ∀ k < 2, vpn (pageAt 0x1000 k) / 1024 = 0 ∧ vpn (pageAt 0x1000 k) % 1024 = k + 1 :=
    by decide
  have hq := hpages k h
  have hpde : Vm.oneFree.mm.word 1 (vpn (pageAt 0x1000 k) / 1024) = tablePde 2 := by
    rw [oneFree_word, hq.1]
    rfl
  rw [Mm.leaf_of_table (by decide) hpde, oneFree_word, hq.2]
  rfl

theorem oneFree_free : FreeInv Vm.oneFree.mm [3] := by
  refine ⟨⟨rfl, rfl⟩, fun i hi => ?_, fun i _ => rfl⟩
  obtain rfl := List.mem_singleton.1 hi
  exact ⟨by decide, rfl, rfl⟩

theorem oneFree_site {size : BitVec 32} (hsize : size.toNat ≤ 0x2000) :
    PopulateSite Vm.oneFree 0 1 0 0x1000 size pteW [3] := by
  have hpages : pagesOf size ≤ 0x2000 := by
    rw [pagesOf]
    omega
  have hcount : pageCount size ≤ 2 := by
    rw [pageCount, toNat_roundUp (by omega)]
    change pagesOf size / 4096 ≤ 2
    omega
  have hva : (Vm.oneFree.vma 0 0).va.toNat = 0x1000 := rfl
  have hlen : (Vm.oneFree.vma 0 0).len.toNat = 0x2000 := rfl
  refine ⟨rfl, .here 0, rfl, rfl, Or.inr (by decide), by decide, by decide,
    ⟨Nat.le_refl _, ?_⟩, by decide, ?_, oneFree_free⟩
  · rw [hva, hlen]
    exact Nat.add_le_add_left hpages 0x1000
  · intro k hk w b hw
    rw [oneFree_leaf k (Nat.lt_of_lt_of_le hk hcount)] at hw
    obtain ⟨rfl, -⟩ := Prod.mk.inj (Option.some.inj hw)
    rfl

/-- The same environment, where no frame is free. -/
def Vm.noneFree : Vm :=
  { Vm.oneFree with mm := { Vm.oneFree.mm with pageFreeList := none, freePagesCount := 0 } }

theorem noneFree_site {size : BitVec 32} (hsize : size.toNat ≤ 0x2000) :
    PopulateSite Vm.noneFree 0 1 0 0x1000 size pteW [] :=
  { oneFree_site hsize with free := ⟨rfl, fun i hi => absurd hi (by simp), fun i _ => rfl⟩ }

/-- One page of the area, whose other page shows that the area is not a new one, and no frame for
it: `vma_populate` returns 0. -/
theorem populates_iff_full : PopulateMeets Vm.noneFree 0 1 0 0x1000 0x1000 pteW [] ∧
    ¬ EnoughFrames Vm.noneFree 1 0x1000 0x1000 [] := by
  refine ⟨(populates_iff (noneFree_site (by decide))).2 (Or.inr ⟨rfl, fun s₀ flags hc => ?_⟩), ?_⟩
  · obtain ⟨la, lf, -, hnew⟩ := hc.place (by decide)
    have hlen := congrArg Vma.len hnew.body
    have hold : ((Vm.noneFree.envs 0).vmas 0).body.len = 0x2000 := rfl
    have hmade : (newArea (s₀.envs 0) 0 0x1000 0x1000 .anon 0 0 0 (pteW ||| pteU)).len = 0x1000 :=
      rfl
    rw [hold, hmade] at hlen
    exact absurd hlen (by decide)
  · have hone : pageCount 0x1000 = 1 := by decide
    rw [EnoughFrames, hone, List.length_nil]
    omega

/-- **One page, and one free frame for it**: `vma_populate` panics. -/
theorem populate_panics :
    PopulateSite Vm.oneFree 0 1 0 0x1000 0x1000 pteW [3] ∧
      EnoughFrames Vm.oneFree 1 0x1000 0x1000 [3] ∧
    vmaPopulate Vm.oneFree 0 0x1000 0x1000 pteW false =
      .error (.panic "pgdir_walk: PAGE_INFO IS NULL") ∧
    ¬ PopulateMeets Vm.oneFree 0 1 0 0x1000 0x1000 pteW [3] := by
  have hsite : PopulateSite Vm.oneFree 0 1 0 0x1000 0x1000 pteW [3] := oneFree_site (by decide)
  have hword : isPresent (Vm.oneFree.mm.word 1 0) = true := by
    rw [oneFree_word]
    exact isPresent_tablePde 2
  have henough : EnoughFrames Vm.oneFree 1 0x1000 0x1000 [3] := by
    have hone : pageCount 0x1000 = 1 := by decide
    have hnone : tablesMissing Vm.oneFree.mm 1 0x1000 1 = 0 := by
      rw [tablesMissing, List.length_eq_zero_iff, List.filter_eq_nil_iff]
      intro j _ hj
      rw [Bool.and_eq_true] at hj
      obtain ⟨hP, hany⟩ := hj
      obtain ⟨k, hk, hkj⟩ := List.any_eq_true.1 hany
      obtain rfl : k = 0 := by simpa using hk
      obtain rfl : vpn (pageAt 0x1000 0) / 1024 = j := by simpa using hkj
      rw [show vpn (pageAt 0x1000 0) / 1024 = 0 by decide, hword] at hP
      exact nomatch hP
    rw [EnoughFrames, hone, hnone]
    decide
  refine ⟨hsite, henough, rfl, fun hpop => ?_⟩
  obtain ⟨s₁, -, hrun, -⟩ := hpop.filled henough
  exact vmaPopulate_never_fills hsite (by decide) s₁ hrun

end Jos
