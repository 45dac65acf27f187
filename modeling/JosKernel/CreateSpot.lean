/-
**Where a new area is put.**

`vma_find_spot` looks for a gap between two neighbours. The length of the gap is computed as
`temp->va - last_addr + last_size`, with the wrong sign in front of `last_size`: a gap looks longer
by twice the length of the area before it. An area that does not fit is put behind that area all the
same.

Main definitions:

* `Jos.seenGap` — the neighbours between which the loop sees a gap;
* `Jos.NoOverlap` — a range is apart from the areas and below `UTOP`;
* `Jos.PutBetween` — the arguments for which `sys_vma_create` puts the new area between two
  neighbours.

Main results:

* `Jos.vmaFindSpot_eq` — what `vma_find_spot` answers;
* `Jos.create_apart_iff` — **when a new area does not overlap an old one**.
-/

import JosKernel.SyscallMemory
import JosKernel.SortedAreas

set_option relaxedAutoImplicit false
set_option autoImplicit false

namespace Jos

open LinkedList Outcome

/-! ### The answer of `vma_find_spot` -/

/-- The first neighbours between which the loop sees a gap of more than `size` bytes, and the length
of the areas up to the first of them. -/
def seenGap (size : BitVec 32) : BitVec 32 → List Vma → Option (BitVec 32 × Vma × Vma)
  | total, u :: w :: as =>
      if size < w.va - u.va + u.len then some (total + u.len, u, w)
        else seenGap size (total + u.len) (w :: as)
  | _, _ => none

/-- The test for the limit, with `spot` still at -1. -/
def overLimit (total size : BitVec 32) : Prop := uTop - 0x00800000#32 - total < -1 + size

instance (total size : BitVec 32) : Decidable (overLimit total size) :=
  inferInstanceAs (Decidable (_ < _))

/-- The answer for the gap that was seen. -/
def spotOf (size : BitVec 32) : Option (BitVec 32 × Vma × Vma) → BitVec 32
  | none => -1
  | some (total, u, _) => if overLimit total size then -1 else u.va + u.len

theorem seenGap_split {size : BitVec 32} {t : BitVec 32} {u w : Vma} :
    ∀ {total : BitVec 32} {as : List Vma},
    seenGap size total as = some (t, u, w) → size < w.va - u.va + u.len ∧ ∃ pre post,
    as = pre ++ u :: w :: post
  | total, [], h => nomatch h
  | total, [_], h => nomatch h
  | total, v :: v' :: as, h => by
      rw [seenGap] at h
      split at h
      · rename_i hlt
        obtain ⟨-, rfl, rfl⟩ : _ ∧ _ ∧ _ := by simpa using h
        exact ⟨hlt, [], as, rfl⟩
      · obtain ⟨hlt, pre, post, heq⟩ := seenGap_split h
        exact ⟨hlt, v :: pre, post, by rw [heq, List.cons_append]⟩

theorem findSpotFrom_eq {sp : Space} {size : BitVec 32} :
    ∀ (rest : List ℕ) (fuel temp : ℕ) (total : BitVec 32),
    Chain sp.link (sp.link temp) rest → rest.length < fuel →
      findSpotFrom sp size fuel temp total = .ok (spotOf size
        (seenGap size total (sp.areas (temp :: rest))))
  | [], fuel + 1, temp, total, hchain, _ => by
      rw [chain_nil] at hchain
      rw [findSpotFrom, hchain]
      rfl
  | next :: rest, fuel + 1, temp, total, hchain, hfuel => by
      obtain ⟨hnext, hrest⟩ := hchain
      have hih := @findSpotFrom_eq sp size rest fuel next (total + (sp.vmas temp).len)
        hrest (by simp at hfuel; omega)
      rw [findSpotFrom, hnext, Space.areas_cons, Space.areas_cons, seenGap]
      dsimp only
      change (if size < (sp.vmas next).va - (sp.vmas temp).va + (sp.vmas temp).len then _ else _) =
        Except.ok (spotOf size (if size < (sp.vmas next).va - (sp.vmas temp).va +
          (sp.vmas temp).len then _ else _))
      by_cases hlt : size < (sp.vmas next).va - (sp.vmas temp).va + (sp.vmas temp).len
      · rw [if_pos hlt, if_pos hlt, spotOf]
        by_cases hover : overLimit (total + (sp.vmas temp).body.len) size
        · rw [if_pos hover]
          exact if_pos hover
        · rw [if_neg hover]
          exact if_neg hover
      · rw [if_neg hlt, if_neg hlt]
        exact hih

/-- **What `vma_find_spot` answers** for an environment with areas. -/
theorem vmaFindSpot_eq {sp : Space} {la lf : List ℕ} {temp : ℕ} (h : VmaInv sp (temp :: la) lf)
    (size : BitVec 32) :
    vmaFindSpot sp size =
      .ok (if size < (sp.vmas temp).va then 0 else spotOf size
        (seenGap size 0 (sp.areas (temp :: la)))) := by
  have hlen := h.length_eq
  obtain ⟨hhead, hchain⟩ := h.alloc
  rw [vmaFindSpot, hhead]
  dsimp only
  split
  · rfl
  · exact findSpotFrom_eq la nVma temp 0 hchain (by simp at hlen; omega)

/-! ### Room for the area -/

/-- **The range of `n` bytes at `a` is apart from the areas and below `UTOP`.** -/
def NoOverlap (as : List Vma) (a n : ℕ) : Prop :=
  a + n ≤ uTop.toNat ∧ ∀ v ∈ as, v.stop ≤ a ∨ a + n ≤ v.va.toNat

/-- A new area, if there is one, does not overlap an old one. -/
def CreatesApart (s : KState) (cur : ℕ) (la : List ℕ) (size perm flags : BitVec 32) : Prop :=
  ∀ a s', Kern.sysVmaCreate cur size perm flags s = .ok (a, s') → a ≠ -1 →
    NoOverlap ((s.vm.envs cur).areas la) a.toNat (pagesOf size)

/-- **The new area is put between `u` and `w`**: there is no room before the first area, `u` and `w`
are the first neighbours with a gap in the eyes of the code, the limit is kept, and nothing else
makes the call fail. -/
structure PutBetween (as : List Vma) (free : ℕ) (size flags : BitVec 32) (u w : Vma) : Prop where
  first : ∀ v, as.head? = some v → v.va ≤ size
  gap : ∃ total, seenGap size 0 as = some (total, u, w) ∧ ¬ overLimit total size
  huge : flags &&& mapHugepages ≠ 0 → size % BitVec.ofNat 32 (pgSize * kb) = 0
  free : 0 < free
  lazy : ¬ (flags &&& mapPopulate ≠ 0 ∧ flags &&& mapHugepages = 0)

/-- With `MAP_POPULATE` there is no area in the end: `page_insert` gets `NULL` for the page. -/
theorem populateFrom_fails {e : ℕ} {va perm : BitVec 32} {hp : Bool} (n i : ℕ) (s : Vm) :
    Ends (fun _ => True) (fun r => r.1 = false ∧ r.2.envs = s.envs)
      (populateFrom e va perm hp (n + 1) i s) := by
  rw [populateFrom, ends_bind]
  refine Ends.post (E := fun _ => True) (Q := fun _ => True) ?_ fun r _ => ?_
  · cases pageAlloc s.mm (if hp then allocHuge else 0) with
    | error c => exact True.intro
    | ok r => exact True.intro
  · obtain ⟨pg, mm⟩ := r
    cases pg with
    | none => exact ⟨rfl, rfl⟩
    | some pg =>
        dsimp only
        rw [ends_bind]
        unfold pageInsert
        cases hd : Vm.pgdir _ e with
        | none => exact True.intro
        | some d => exact True.intro

/-- `sys_vma_create` with `MAP_POPULATE` and small pages. -/
theorem vmaPopulate_fails {e : ℕ} {va size perm : BitVec 32} (h₀ : 0 < size.toNat)
    (h₁ : size.toNat ≤ 0xfffff000) (s : Vm) :
    Ends (fun _ => True) (fun r => r.1 = false ∧ r.2.envs = s.envs)
      (vmaPopulate s e va size perm false) := by
  have hp : pgSize = 4096 := rfl
  have hpos : 0 < pagesOf size / 4096 := by
    rw [pagesOf]
    omega
  rw [vmaPopulate, toNat_roundUp h₁, hp, if_neg Bool.false_ne_true,
    Nat.mul_one, ← Nat.sub_add_cancel hpos]
  exact populateFrom_fails _ 0 s

theorem vmaNew_page {sp sp' : Space} {va len : BitVec 32} {type : VmaType}
    {src filesize cpyDst perm : BitVec 32} {i : ℕ}
    (h : vmaNew sp va len type src filesize cpyDst perm = .ok (.made i, sp')) :
    va % BitVec.ofNat 32 pgSize = 0 := by
  by_contra hne
  rw [vmaNew_unaligned (mod_pgSize_eq_zero.not.1 hne)] at h
  exact absurd h (by simp)

/-- The call returns the address that was found, unless it fails. -/
theorem createVm_ok {s s' : Vm} {e : ℕ} {la lf : List ℕ} {size perm flags a : BitVec 32}
    (h : VmaInv (s.envs e) la lf) (h₀ : 0 < size.toNat)
    (h₁ : ∀ spot, vmaFindSpot (s.envs e) size = .ok spot → spot ≠ -1 → size.toNat ≤ 0xfffff000)
    (hrun : createVm s e size perm flags = .ok (a, s')) (ha : a ≠ -1) :
    vmaFindSpot (s.envs e) size = .ok a ∧ (flags &&& mapHugepages ≠ 0 →
      size % BitVec.ofNat 32 (pgSize * kb) = 0) ∧
      0 < lf.length ∧ ¬ (flags &&& mapPopulate ≠ 0 ∧ flags &&& mapHugepages = 0) := by
  unfold createVm at hrun
  split at hrun
  · exact absurd (congrArg Prod.fst (Except.ok.inj hrun)).symm ha
  · rename_i hflags
    obtain ⟨spot, hspot, hrun⟩ := bind_eq_ok.1 hrun
    obtain ⟨⟨new, s₁⟩, hnew, hrun⟩ := bind_eq_ok.1 hrun
    cases new with
    | outOfMemory => exact absurd (congrArg Prod.fst (Except.ok.inj hrun)).symm ha
    | failed => exact absurd (congrArg Prod.fst (Except.ok.inj hrun)).symm ha
    | made new =>
        have hhuge : flags &&& mapHugepages ≠ 0 → size % BitVec.ofNat 32 (pgSize * kb) = 0 := by
          intro hf
          by_contra hne
          exact hflags ⟨hf, hne⟩
        obtain ⟨⟨r, sp'⟩, hvma, hnew⟩ := bind_eq_ok.1 hnew
        obtain rfl : r = .made new := congrArg Prod.fst (Except.ok.inj hnew)
        dsimp only at hvma
        have hsmall : size.toNat ≤ 0xfffff000 := by
          refine h₁ spot hspot ?_
          rintro rfl
          exact absurd (vmaNew_page hvma) (by decide)
        have hfree : 0 < lf.length := by
          rw [List.length_pos_iff]
          rintro rfl
          rw [vmaNew_empty h] at hvma
          split at hvma
          · exact absurd hvma (by simp)
          · split at hvma
            · exact absurd hvma (by simp)
            · exact absurd hvma (by simp)
        change createEnd s₁ e new spot size perm flags = _ at hrun
        unfold createEnd at hrun
        split at hrun
        · obtain ⟨⟨ok, s₂⟩, hpop, hrun⟩ := bind_eq_ok.1 hrun
          obtain rfl : ok = false := ((vmaPopulate_fails h₀ hsmall s₁).of_ok hpop).1
          exact absurd (congrArg Prod.fst (Except.ok.inj hrun)).symm ha
        · rename_i hlazy
          have hspot' : spot = a := by
            split at hrun
            · exact congrArg Prod.fst (Except.ok.inj hrun)
            · exact congrArg Prod.fst (Except.ok.inj hrun)
          rw [← hspot']
          exact ⟨hspot, hhuge, hfree, hlazy⟩

/-- The call succeeds where nothing speaks against it. -/
theorem createVm_made {s : Vm} {e : ℕ} {la lf : List ℕ} {size perm flags spot : BitVec 32}
    (h : VmaInv (s.envs e) la lf) (hspot : vmaFindSpot (s.envs e) size = .ok spot)
    (hpage : spot.toNat % 4096 = 0)
    (hhuge : flags &&& mapHugepages ≠ 0 → size % BitVec.ofNat 32 (pgSize * kb) = 0)
    (hfree : 0 < lf.length) (hlazy : ¬ (flags &&& mapPopulate ≠ 0 ∧ flags &&& mapHugepages = 0)) :
    ∃ s', createVm s e size perm flags = .ok (spot, s') := by
  obtain ⟨el, lf, rfl⟩ := List.exists_cons_of_ne_nil (List.length_pos_iff.1 hfree)
  obtain ⟨-, -, sp', -, -, -, hnew, -⟩ :=
    @vmaNew_place (s.envs e) el la lf h spot size .anon 0 0 0 (perm ||| pteU) (by simp) hpage
  have hflags : ¬ (flags &&& mapHugepages ≠ 0 ∧ size % BitVec.ofNat 32 (pgSize * kb) ≠ 0) :=
    fun hf => hf.2 (hhuge hf.1)
  have hspace : (s.onSpace e fun sp => vmaNew sp spot size .anon 0 0 0 (perm ||| pteU)) =
      .ok (.made el, s.modSpace e fun _ => sp') := by
    rw [Vm.onSpace, hnew]
    rfl
  rw [createVm, if_neg hflags, hspot]
  change ∃ s', ((s.onSpace e fun sp => vmaNew sp spot size .anon 0 0 0 (perm ||| pteU)) >>= _) = _
  rw [hspace]
  change ∃ s', createEnd _ e el spot size perm flags = _
  rw [createEnd, if_neg hlazy]
  split
  · exact ⟨_, rfl⟩
  · exact ⟨_, rfl⟩

/-! ### The condition -/

section

variable {s : KState} {cur : ℕ} {la lf : List ℕ} {size perm flags : BitVec 32}

/-- The addresses on both sides of a gap that the code sees. -/
theorem seenGap_areas {as : List Vma} (hok : AreasOk as) {total : BitVec 32} {u w : Vma}
    (hgap : seenGap size 0 as = some (total, u, w)) :
    u.Fits ∧ w.Fits ∧ u.Before w ∧ (∀ v ∈ as, v.stop ≤ u.stop ∨ w.va.toNat ≤ v.va.toNat) ∧ w ∈ as ∧
      size.toNat < 0xfffff000 := by
  obtain ⟨hlt, pre, post, rfl⟩ := seenGap_split hgap
  obtain ⟨-, hrest, hbefore⟩ := List.pairwise_append.1 hok.order
  obtain ⟨hu, hrest⟩ := List.pairwise_cons.1 hrest
  have hw := (List.pairwise_cons.1 hrest).1
  have hfu : u.Fits := hok.fits u (by simp)
  have hfw : w.Fits := hok.fits w (by simp)
  refine ⟨hfu, hfw, hu w (by simp), fun v hv => ?_, by simp, ?_⟩
  · rcases List.mem_append.1 hv with hv | hv
    · have hb : v.va.toNat + v.len.toNat ≤ u.va.toNat := hbefore v hv u (by simp)
      refine Or.inl ?_
      rw [Vma.stop, Vma.stop]
      omega
    · rcases List.mem_cons.1 hv with rfl | hv
      · exact Or.inl (Nat.le_refl _)
      · rcases List.mem_cons.1 hv with rfl | hv
        · exact Or.inr (Nat.le_refl _)
        · have hb : w.va.toNat + w.len.toNat ≤ v.va.toNat := hw v hv
          exact Or.inr (by omega)
  · -- the length of the gap is a number of pages below `2 ^ 32`
    have hpages : (w.va - u.va + u.len).toNat % 4096 = 0 := by
      have hpu := hfu.page
      have hpw := hfw.page
      rw [BitVec.toNat_add, BitVec.toNat_sub]
      omega
    rw [BitVec.lt_def] at hlt
    omega

/-- What the system call returns is what the call without the locks returns. -/
theorem sysVmaCreate_vm (henv : s.held .env = false) (hp : s.held .pagealloc = false)
    {a : BitVec 32} {s' : KState} (hrun : Kern.sysVmaCreate cur size perm flags s = .ok (a, s')) :
    ∃ vm, createVm s.vm cur size perm flags = .ok (a, vm) := by
  rw [Kern.sysVmaCreate_eq henv hp] at hrun
  obtain ⟨vm, hvm, -⟩ := KState.after_eq_ok.1 hrun
  exact ⟨vm, hvm⟩

/-- **An area that is put between two others** begins where the first of them ends. -/
theorem PutBetween.created (h : Sorted (s.vm.envs cur) la lf) (henv : s.held .env = false)
    (hp : s.held .pagealloc = false) {u w : Vma}
    (hput : PutBetween ((s.vm.envs cur).areas la) lf.length size flags u w) :
    (∃ s', Kern.sysVmaCreate cur size perm flags s = .ok (u.va + u.len, s')) ∧
      u.va + u.len ≠ -1 ∧ (u.va + u.len).toNat = u.stop := by
  obtain ⟨total, hgap, hlimit⟩ := hput.gap
  obtain ⟨hu, -, -, -, -, -⟩ := seenGap_areas h.ok hgap
  obtain ⟨temp, la', rfl⟩ : ∃ temp la', la = temp :: la' := by
    cases la with
    | nil => cases hgap
    | cons temp la' => exact ⟨temp, la', rfl⟩
  have hfirst : ¬ size < ((s.vm.envs cur).vmas temp).va := by
    have hle : ((s.vm.envs cur).vmas temp).body.va ≤ size := hput.first _ rfl
    rw [BitVec.le_def] at hle
    rw [BitVec.lt_def]
    exact Nat.not_lt.2 hle
  have hspot := vmaFindSpot_eq h.lists size
  rw [if_neg hfirst, hgap, spotOf, if_neg hlimit] at hspot
  have hstop : (u.va + u.len).toNat = u.stop := hu.toNat_stop
  have hpage := hu.page
  have hlow := hu.low
  have hU : uTop.toNat = 4005560320 := rfl
  refine ⟨?_, fun heq => ?_, hstop⟩
  · obtain ⟨vm, hvm⟩ := @createVm_made s.vm cur _ lf size perm flags _ h.lists hspot
      (by rw [hstop, Vma.stop]; omega) hput.huge hput.free hput.lazy
    refine ⟨{ s with vm := vm, held := s.held }, ?_⟩
    rw [Kern.sysVmaCreate_eq henv hp, hvm]
    rfl
  · have hnat := congrArg BitVec.toNat heq
    rw [hstop, Vma.stop] at hnat
    have hminus : (-1 : BitVec 32).toNat = 4294967295 := rfl
    omega

/-- A length for which a spot is found does not run over the end of the address space when it is
rounded. -/
theorem spot_size {temp : ℕ} (h : Sorted (s.vm.envs cur) (temp :: la) lf) {spot : BitVec 32}
    (hspot : vmaFindSpot (s.vm.envs cur) size = .ok spot) (hne : spot ≠ -1) :
    size.toNat ≤ 0xfffff000 := by
  have hlow := (h.fits (List.mem_cons_self (a := temp) (l := la))).low
  have hU : uTop.toNat = 4005560320 := rfl
  rw [vmaFindSpot_eq h.lists size] at hspot
  obtain rfl := Except.ok.inj hspot
  split at hne
  · rename_i hlt
    rw [BitVec.lt_def] at hlt
    omega
  · cases hgap : seenGap size 0 ((s.vm.envs cur).areas (temp :: la)) with
    | none =>
        rw [hgap] at hne
        exact absurd rfl hne
    | some p =>
        exact Nat.le_of_lt (seenGap_areas (u := p.2.1) (w := p.2.2) h.ok hgap).2.2.2.2.2

/-- There is room below the first area. -/
theorem noOverlap_below {temp : ℕ} (h : Sorted (s.vm.envs cur) (temp :: la) lf)
    (hlt : size < ((s.vm.envs cur).vmas temp).va) :
    NoOverlap ((s.vm.envs cur).areas (temp :: la)) 0 (pagesOf size) := by
  have hfit := h.fits (List.mem_cons_self (a := temp) (l := la))
  have hlow := hfit.low
  have hpage := hfit.page
  have hU : uTop.toNat = 4005560320 := rfl
  rw [BitVec.lt_def] at hlt
  have hbelow : pagesOf size ≤ ((s.vm.envs cur).vmas temp).va.toNat := by
    rw [pagesOf]
    omega
  refine ⟨by omega, fun v hv => Or.inr ?_⟩
  rw [Nat.zero_add]
  rcases List.mem_cons.1 hv with rfl | hv
  · exact hbelow
  · have hb := (List.pairwise_cons.1 h.ok.order).1 v hv
    have hb : ((s.vm.envs cur).vmas temp).va.toNat + _ ≤ v.va.toNat := hb
    omega

/-- There is room in a gap that is long enough. -/
theorem noOverlap_between {as : List Vma} (hok : AreasOk as) {total : BitVec 32} {u w : Vma}
    (hgap : seenGap size 0 as = some (total, u, w))
    (hroom : u.stop + pagesOf size ≤ w.va.toNat) : NoOverlap as u.stop (pagesOf size) := by
  obtain ⟨-, hw, -, hsides, -, -⟩ := seenGap_areas hok hgap
  have hlow := hw.low
  refine ⟨by omega, fun v hv => ?_⟩
  rcases hsides v hv with hv | hv
  · exact Or.inl hv
  · exact Or.inr (by omega)

/-- **When a new area does not overlap an old one**: where the code sees a gap, there is room for
the area. -/
theorem create_apart_iff (s : KState) (cur : ℕ) (la lf : List ℕ) (size perm flags : BitVec 32)
    (h : Sorted (s.vm.envs cur) la lf) (henv : s.held .env = false)
    (hp : s.held .pagealloc = false) (hsize : 0 < size.toNat) :
    CreatesApart s cur la size perm flags ↔
      ∀ u w, PutBetween ((s.vm.envs cur).areas la) lf.length size flags u w →
        u.stop + pagesOf size ≤ w.va.toNat := by
  constructor
  · intro hapart u w hput
    obtain ⟨⟨s', hrun⟩, hne, hstop⟩ :=
      @PutBetween.created s cur la lf size perm flags h henv hp u w hput
    obtain ⟨total, hgap, -⟩ := hput.gap
    obtain ⟨-, hw, huw, -, hmem, -⟩ := seenGap_areas h.ok hgap
    have hno := (hapart _ _ hrun hne).2 w hmem
    rw [hstop] at hno
    have hpos := hw.pos
    have huw' : u.stop ≤ w.va.toNat := huw
    rw [Vma.stop] at hno
    omega
  · intro hroom a s' hrun ha
    obtain ⟨vm, hvm⟩ := sysVmaCreate_vm henv hp hrun
    cases la with
    | nil =>
        -- without an area the head of the list is `NULL`
        have hnone : (s.vm.envs cur).allocVmaList = none := h.lists.alloc
        unfold createVm at hvm
        split at hvm
        · exact absurd (congrArg Prod.fst (Except.ok.inj hvm)).symm ha
        · obtain ⟨spot, hspot, -⟩ := bind_eq_ok.1 hvm
          rw [vmaFindSpot, hnone] at hspot
          cases hspot
    | cons temp la =>
        obtain ⟨hspot, hhuge, hfree, hlazy⟩ :=
          createVm_ok h.lists hsize (fun _ hs hne => spot_size h hs hne) hvm ha
        rw [vmaFindSpot_eq h.lists size] at hspot
        obtain rfl := Except.ok.inj hspot
        by_cases hlt : size < ((s.vm.envs cur).vmas temp).va
        · rw [if_pos hlt]
          exact noOverlap_below h hlt
        · rw [if_neg hlt] at ha ⊢
          cases hgap : seenGap size 0 ((s.vm.envs cur).areas (temp :: la)) with
          | none =>
              rw [hgap] at ha
              exact absurd rfl ha
          | some p =>
              obtain ⟨total, u, w⟩ := p
              rw [hgap, spotOf] at ha
              have hlimit : ¬ overLimit total size := fun hover => ha (if_pos hover)
              have hput : PutBetween ((s.vm.envs cur).areas (temp :: la)) lf.length
                  size flags u w := by
                refine ⟨fun v hv => ?_, ⟨total, hgap, hlimit⟩, hhuge, hfree, hlazy⟩
                obtain rfl := Option.some.inj hv
                exact BitVec.not_lt.1 hlt
              have hstop : (u.va + u.len).toNat = u.stop := (seenGap_areas h.ok hgap).1.toNat_stop
              rw [spotOf, if_neg hlimit, hstop]
              exact noOverlap_between h.ok hgap (hroom u w hput)

end

/-- A gap that is long enough. -/
theorem create_apart_iff_room :
    CreatesApart (.ofVm (.ofAreas [userArea 0x1000 0x1000, userArea 0x5000 0x1000])) 0
      [0, 1] 0x1000 pteW 0 := by
  refine (create_apart_iff (.ofVm (.ofAreas [userArea 0x1000 0x1000, userArea 0x5000 0x1000])) 0
    [0, 1] _ 0x1000 pteW 0
    (@ofAreas_sorted [userArea 0x1000 0x1000, userArea 0x5000 0x1000] (by decide) (by decide) none
      0) rfl rfl (by decide)).2 ?_
  rintro u w ⟨-, ⟨total, hgap, -⟩, -⟩
  obtain ⟨-, rfl, rfl⟩ : _ ∧ u = userArea 0x1000 0x1000 ∧ w = userArea 0x5000 0x1000 := by
    have hseen : seenGap 0x1000 0 [userArea 0x1000 0x1000, userArea 0x5000 0x1000] =
        some (0x1000, userArea 0x1000 0x1000, userArea 0x5000 0x1000) := by decide
    simpa [eq_comm] using hseen.symm.trans hgap
  decide

/-- Two pages are put into a gap of one page. -/
theorem create_overlaps :
    (∃ lf, Sorted ((Vm.ofAreas [userArea 0x1000 0x2000, userArea 0x4000 0x1000]).envs 0)
      [0, 1] lf) ∧
    ¬ CreatesApart (.ofVm (.ofAreas [userArea 0x1000 0x2000, userArea 0x4000 0x1000])) 0
      [0, 1] 0x2000 pteW 0 := by
  have hsorted :=
    @ofAreas_sorted [userArea 0x1000 0x2000, userArea 0x4000 0x1000] (by decide) (by decide) none 0
  refine ⟨⟨_, hsorted⟩, fun hapart => ?_⟩
  obtain ⟨vm, hvm⟩ := @createVm_made (.ofAreas [userArea 0x1000 0x2000, userArea 0x4000 0x1000]) 0 _
    _ 0x2000 pteW 0 0x3000
    hsorted.lists (by decide) (by decide) (by decide) (by decide) (by decide)
  have hrun : Kern.sysVmaCreate 0 0x2000 pteW 0 (.ofVm
      (.ofAreas [userArea 0x1000 0x2000, userArea 0x4000 0x1000])) =
      .ok (0x3000, .ofVm vm) := by
    rw [Kern.sysVmaCreate_eq rfl rfl]
    change KState.after _ _
      (createVm (.ofAreas [userArea 0x1000 0x2000, userArea 0x4000 0x1000]) 0 0x2000 pteW 0) = _
    rw [hvm]
    rfl
  have hno :=
    (hapart _ _ hrun (by decide)).2 (userArea 0x4000 0x1000) (by simp [Space.areas]; decide)
  exact absurd hno (by decide)

end Jos
