/-
**The list of areas in order.**

`alloc_vma_list` is kept in the order of the addresses. This module says exactly what the operations
of `kern/vma.c` do to the list of areas: where `vma_new` puts a new one, and that
`vma_remove_alloced` takes away the one that it is given.

Main definitions:

* `Jos.Vma.Fits`, `Jos.AreasOk` — areas of whole pages below `UTOP`, in order and apart;
* `Jos.Space.areas` — the areas on a list of descriptors;
* `Jos.Sorted` — an environment whose areas are in order.

Main results:

* `Jos.vmaNew_place` — where a new area is put;
* `Jos.Sorted.insert` — **a new area comes to its place**;
* `Jos.Ordered.remove` — **the area that is given is taken out**;
* `Jos.Ordered.lookup` — the area that covers an address is found.
-/

import JosKernel.Areas

set_option relaxedAutoImplicit false
set_option autoImplicit false

namespace Jos

open LinkedList Outcome

/-! ### Areas in order -/

/-- An area of whole pages below `UTOP`. -/
structure Vma.Fits (v : Vma) : Prop where
  page : v.va.toNat % 4096 = 0 ∧ v.len.toNat % 4096 = 0
  pos : 0 < v.len.toNat
  low : v.va.toNat + v.len.toNat ≤ uTop.toNat

/-- The first area ends where the second one begins, or before. -/
def Vma.Before (v w : Vma) : Prop := v.va.toNat + v.len.toNat ≤ w.va.toNat

instance (v w : Vma) : Decidable (v.Before w) := Nat.decLe ..

/-- **Areas in the order of their addresses**, apart from each other. -/
structure AreasOk (as : List Vma) : Prop where
  fits : ∀ v ∈ as, v.Fits
  order : as.Pairwise Vma.Before

instance (v : Vma) : Decidable v.Fits :=
  decidable_of_iff ((v.va.toNat % 4096 = 0 ∧ v.len.toNat % 4096 = 0) ∧ 0 < v.len.toNat ∧
    v.va.toNat + v.len.toNat ≤ uTop.toNat)
    ⟨fun h => ⟨h.1, h.2.1, h.2.2⟩, fun h => ⟨h.page, h.pos, h.low⟩⟩

instance (as : List Vma) : Decidable (AreasOk as) :=
  decidable_of_iff ((∀ v ∈ as, v.Fits) ∧ as.Pairwise Vma.Before)
    ⟨fun h => ⟨h.1, h.2⟩, fun h => ⟨h.fits, h.order⟩⟩

/-- A range of addresses that is not empty and does not wrap around. -/
structure Vma.Proper (v : Vma) : Prop where
  pos : 0 < v.len.toNat
  stop : v.va.toNat + v.len.toNat < 2 ^ 32

/-- The same without the pages. -/
structure AreasApart (as : List Vma) : Prop where
  proper : ∀ v ∈ as, v.Proper
  order : as.Pairwise Vma.Before

/-- The areas of a list of descriptors, without the links. -/
def Space.areas (sp : Space) (la : List ℕ) : List Vma := la.map fun i => (sp.vmas i).body

/-- The first address behind an area. -/
def Vma.stop (v : Vma) : ℕ := v.va.toNat + v.len.toNat

/-- **An environment whose areas are in order**: `la` are its descriptors in use, `lf` the free
ones. -/
structure Sorted (sp : Space) (la lf : List ℕ) : Prop where
  lists : VmaInv sp la lf
  ok : AreasOk (sp.areas la)

/-- The same for areas that need not be made of whole pages. -/
structure Ordered (sp : Space) (la lf : List ℕ) : Prop where
  lists : VmaInv sp la lf
  ok : AreasApart (sp.areas la)

theorem Vma.body_va (v : Vma) : v.body.va = v.va := rfl

theorem Vma.body_len (v : Vma) : v.body.len = v.len := rfl

theorem Vma.body_hps (v : Vma) : v.body.hps = v.hps := rfl

theorem Vma.Fits.proper {v : Vma} (h : v.Fits) : v.Proper := by
  have hlow := h.low
  have hU : uTop.toNat = 4005560320 := rfl
  exact ⟨h.pos, by omega⟩

theorem Vma.Proper.toNat_stop {v : Vma} (h : v.Proper) :
    (v.va + v.len).toNat = v.va.toNat + v.len.toNat := by
  rw [BitVec.toNat_add]
  exact Nat.mod_eq_of_lt h.stop

theorem Vma.Fits.toNat_stop {v : Vma} (h : v.Fits) :
    (v.va + v.len).toNat = v.va.toNat + v.len.toNat := h.proper.toNat_stop

/-- The addresses of an area. -/
theorem Vma.Proper.covers_iff {v : Vma} (h : v.Proper) {va : BitVec 32} :
    v.covers va = true ↔ v.va.toNat ≤ va.toNat ∧ va.toNat < v.va.toNat + v.len.toNat := by
  simp only [Vma.covers, decide_eq_true_eq, BitVec.le_def, BitVec.lt_def]
  rw [h.toNat_stop]

theorem Vma.Fits.covers_iff {v : Vma} (h : v.Fits) {va : BitVec 32} :
    v.covers va = true ↔ v.va.toNat ≤ va.toNat ∧ va.toNat < v.va.toNat + v.len.toNat :=
      h.proper.covers_iff

theorem AreasOk.apart {as : List Vma} (h : AreasOk as) : AreasApart as :=
  ⟨fun v hv => (h.fits v hv).proper, h.order⟩

theorem Sorted.ordered {sp : Space} {la lf : List ℕ} (h : Sorted sp la lf) : Ordered sp la lf :=
  ⟨h.lists, h.ok.apart⟩

theorem areasOk_append {as bs : List Vma} :
    AreasOk (as ++ bs) ↔ AreasOk as ∧ AreasOk bs ∧ ∀ v ∈ as, ∀ w ∈ bs, v.Before w := by
  constructor
  · intro h
    obtain ⟨ha, hb, hab⟩ := List.pairwise_append.1 h.order
    exact ⟨⟨fun v hv => h.fits v (List.mem_append_left _ hv), ha⟩,
      ⟨fun v hv => h.fits v (List.mem_append_right _ hv), hb⟩, hab⟩
  · rintro ⟨ha, hb, hab⟩
    refine ⟨fun v hv => ?_, List.pairwise_append.2 ⟨ha.order, hb.order, hab⟩⟩
    rcases List.mem_append.1 hv with hv | hv
    · exact ha.fits v hv
    · exact hb.fits v hv

namespace Space

variable {sp sp' : Space} {la lb : List ℕ}

theorem areas_append : sp.areas (la ++ lb) = sp.areas la ++ sp.areas lb := List.map_append

theorem areas_cons {i : ℕ} : sp.areas (i :: la) = (sp.vmas i).body :: sp.areas la := rfl

theorem areas_congr (h : ∀ i ∈ la, (sp'.vmas i).body = (sp.vmas i).body) :
    sp'.areas la = sp.areas la :=
  List.map_congr_left h

theorem mem_areas {i : ℕ} (h : i ∈ la) : (sp.vmas i).body ∈ sp.areas la := List.mem_map_of_mem h

end Space

/-- `ROUNDUP(size, PGSIZE)` as an unbounded number. -/
def pagesOf (size : BitVec 32) : ℕ := (size.toNat + 4095) / 4096 * 4096

theorem toNat_roundUp {size : BitVec 32} (h : size.toNat ≤ 0xfffff000) :
    (roundUp size (BitVec.ofNat 32 pgSize)).toNat = pagesOf size := by
  have hsum : (size + BitVec.ofNat 32 pgSize - 1).toNat = size.toNat + 4095 := by
    have h4096 : (BitVec.ofNat 32 pgSize).toNat = 4096 := rfl
    have hone : (1 : BitVec 32).toNat = 1 := rfl
    rw [BitVec.toNat_sub, BitVec.toNat_add, h4096, hone]
    omega
  rw [roundUp, roundDown, BitVec.toNat_sub_of_le, BitVec.toNat_umod, hsum, pagesOf]
  · change size.toNat + 4095 - (size.toNat + 4095) % 4096 = _
    omega
  · rw [BitVec.le_def, BitVec.toNat_umod, hsum]
    exact Nat.mod_le ..

/-! ### The place of a new area -/

/-- A list is cut in one way where a test becomes true. -/
theorem cut_unique {α : Type} {P : α → Prop} {pre post pre' post' : List α}
    (h : pre ++ post = pre' ++ post') (hpre : ∀ a ∈ pre, ¬ P a)
    (hpost : ∀ a, post.head? = some a → P a) (hpre' : ∀ a ∈ pre', ¬ P a)
    (hpost' : ∀ a, post'.head? = some a → P a) : pre = pre' ∧ post = post' := by
  rcases List.append_eq_append_iff.1 h with ⟨m, rfl, rfl⟩ | ⟨m, rfl, rfl⟩
  · cases m with
    | nil => exact ⟨(List.append_nil pre).symm, rfl⟩
    | cons a m => exact absurd (hpost a rfl) (hpre' a (by simp))
  · cases m with
    | nil => exact ⟨List.append_nil pre', rfl⟩
    | cons a m => exact absurd (hpost' a rfl) (hpre a (by simp))

/-- What `vma_new` changes: the descriptor `el` describes the area `v`. -/
structure NewAt (sp sp' : Space) (el : ℕ) (v : Vma) : Prop where
  body : (sp'.vmas el).body = v
  others : ∀ j ≠ el, (sp'.vmas j).body = (sp.vmas j).body
  pgdir : sp'.pgdir = sp.pgdir
  allocPages : sp'.allocPages = sp.allocPages

/-- The area that the descriptor `el` describes after `vma_new`: its `hps` is the old one. -/
def newArea (sp : Space) (el : ℕ) (va len : BitVec 32) (type : VmaType)
    (src filesize cpyDst perm : BitVec 32) : Vma :=
  { newVma va len type src filesize cpyDst perm with hps := (sp.vmas el).hps }

/-- **`vma_new`** with a free descriptor. -/
theorem vmaNew_place {sp : Space} {el : ℕ} {la lf : List ℕ} (h : VmaInv sp la (el :: lf))
    {va len : BitVec 32} {type : VmaType} {src filesize cpyDst perm : BitVec 32}
    (hsrc : type = .binary → src ≠ 0 ∧ filesize ≠ 0) (hpage : va.toNat % 4096 = 0) :
    ∃ pre post sp', la = pre ++ post ∧ (∀ i ∈ pre, ¬ va < (sp.vmas i).va) ∧
      (∀ i, post.head? = some i → va < (sp.vmas i).va) ∧
      vmaNew sp va len type src filesize cpyDst perm = .ok (.made el, sp') ∧
      VmaInv sp' (pre ++ el :: post) lf ∧
      NewAt sp sp' el (newArea sp el va len type src filesize cpyDst perm) := by
  obtain ⟨sp₁, hsp₁, hheld, hclean⟩ := vmaRemoveHead_held h
  obtain ⟨hbody₁, hpg₁, hpages₁⟩ := vmaRemoveHead_some h.free.1 hsp₁
  have hva₁ : ∀ j, (sp₁.vmas j).va = (sp.vmas j).va := fun j => by
    rw [← Vma.body_va, hbody₁, Vma.body_va]
  obtain ⟨pre, post, sp₂, hsplit, hpre, hpost, hins, hinv⟩ :=
    vmaInsert_place (@VmaHeld.modVma sp₁ el la lf hheld
    (fun v => { v with type := type, va := va, len := roundUp len (BitVec.ofNat 32 pgSize),
                       perm := perm, cpySrc := if type = .binary then src else v.cpySrc,
                       srcSz := filesize, cpyDst := cpyDst })
    fun _ => rfl)
  have hother : ∀ j ∈ la, j ≠ el := by
    rintro j hj rfl
    exact hheld.not_mem.1 hj
  refine ⟨pre, post, sp₂, hsplit, fun i hi => ?_, fun i hi => ?_, ?_, hinv, ?_⟩
  · have hne := hother i (by rw [hsplit]; exact List.mem_append_left _ hi)
    have hlt := hpre i hi
    rwa [Space.modVma_self, Space.modVma_of_ne _ _ hne, hva₁] at hlt
  · have hne := hother i (by rw [hsplit]; exact List.mem_append_right _ (List.mem_of_mem_head? hi))
    have hlt := hpost i hi
    rwa [Space.modVma_self, Space.modVma_of_ne _ _ hne, hva₁] at hlt
  · have hsrc' : ¬ (type = .binary ∧ (src = 0 ∨ filesize = 0)) := by
      rintro ⟨htype, hz⟩
      obtain ⟨h₁, h₂⟩ := hsrc htype
      exact hz.elim h₁ h₂
    have hpage' : ¬ va % BitVec.ofNat 32 pgSize ≠ 0 :=
      not_not_intro (mod_pgSize_eq_zero.2 hpage)
    have hcheck : vmaConsistencyCheck (sp₁.vmas el) .unused = true := by
      obtain ⟨h1, h2, h3, h4, h5, h6, h7⟩ := hclean
      simp [vmaConsistencyCheck, h1, h2, h3, h4, h5, h6, h7]
    unfold vmaNew
    dsimp only
    rw [if_neg hsrc', if_neg hpage', hsp₁]
    dsimp only
    rw [if_neg (not_not_intro hcheck), hins]
    rfl
  · obtain ⟨hbody₂, hpg, hpages⟩ := (vmaInsert_body _ el).of_ok hins
    refine ⟨?_, fun j hj => ?_, ?_, ?_⟩
    · have hhps : (sp₁.vmas el).hps = (sp.vmas el).hps := by
        rw [← Vma.body_hps, hbody₁, Vma.body_hps]
      have hsrc₁ := hclean.cpySrc
      rw [hbody₂ el, Space.modVma_self, newArea, newVma]
      simp only [Vma.body, hsrc₁, hhps]
    · rw [hbody₂ j, Space.modVma_of_ne _ _ hj]
      exact hbody₁ j
    · exact hpg.trans hpg₁
    · exact hpages.trans hpages₁

/-- The area that `vma_lookup` finds. -/
theorem VmaInv.found {sp : Space} {la lf : List ℕ} {i : ℕ} {va : BitVec 32} (h : VmaInv sp la lf)
    (hlook : vmaLookup sp va = .ok (some i)) : i ∈ la ∧ (sp.vmas i).covers va = true := by
  have hlen : la.length ≤ nVma := by
    have hlen := h.length_eq
    omega
  unfold vmaLookup at hlook
  rcases h.alloc.seek_cases hlen (fun i => (sp.vmas i).covers va) none
    with ⟨-, hseek⟩ | ⟨pre, x, post, rfl, -, hx, hseek⟩
  · rw [hseek] at hlook
    exact nomatch hlook
  · rw [hseek] at hlook
    obtain rfl := Option.some.inj (Except.ok.inj hlook)
    exact ⟨by simp, hx⟩

/-- Without a free descriptor **`vma_new`** makes no area: it rejects its arguments, or dereferences
`NULL`. -/
theorem vmaNew_empty {sp : Space} {la : List ℕ} (h : VmaInv sp la []) (va len : BitVec 32)
    (type : VmaType) (src filesize cpyDst perm : BitVec 32) :
    vmaNew sp va len type src filesize cpyDst perm =
      if type = .binary ∧ (src = 0 ∨ filesize = 0) then .ok (.failed, sp)
      else if va % BitVec.ofNat 32 pgSize ≠ 0 then .ok (.failed, sp) else .error .nullDeref := by
  have hnone : sp.freeVmaList = none := h.free
  unfold vmaNew vmaRemoveHead
  rw [hnone]
  rfl

/-- `vma_remove_alloced` works on the lists only. -/
theorem vmaUnlink_keeps (sp : Space) (prev i : ℕ) :
    (vmaUnlink sp prev i).pgdir = sp.pgdir ∧ (vmaUnlink sp prev i).allocPages = sp.allocPages := by
  unfold vmaUnlink
  dsimp only [Space.modVma]
  split
  · exact ⟨rfl, rfl⟩
  · exact ⟨rfl, rfl⟩

/-- **`vma_remove_alloced`** of a descriptor with an address of its own. -/
theorem VmaInv.removeAlloced {s : Vm} {e i : ℕ} {pre post lf : List ℕ}
    (h : VmaInv (s.envs e) (pre ++ i :: post) lf)
    (hpre : ∀ j ∈ pre, (s.vma e j).va ≠ (s.vma e i).va) (destroy : Bool) :
    vmaRemoveAlloced s e i destroy =
      ((if destroy then vmaRemovePages s e (s.vma e i).va (s.vma e i).len else pure s) >>= fun s₁ =>
        pure (true, s₁.modSpace e fun sp => vmaUnlink sp (pre.getLastD i) i)) := by
  have hlen : (pre ++ i :: post).length ≤ nVma := by
    have hlen := h.length_eq
    omega
  have hmiss : ∀ j ∈ pre, (((s.envs e).vmas j).va == ((s.envs e).vmas i).va &&
      ((s.envs e).vmas j).len == ((s.envs e).vmas i).len) = false := by
    intro j hj
    rw [Bool.and_eq_false_iff, beq_eq_false_iff_ne]
    exact Or.inl (hpre j hj)
  have hseek := @Chain.seek_of_found _ (s.envs e).link
    (fun j => ((s.envs e).vmas j).va == ((s.envs e).vmas i).va &&
      ((s.envs e).vmas j).len == ((s.envs e).vmas i).len) i post pre nVma (s.envs e).allocVmaList
        (s.envs e).allocVmaList
    h.alloc (by simp at hlen; omega) hmiss (by simp)
  have hold : pre.getLast?.or (s.envs e).allocVmaList = some (pre.getLastD i) := by
    rcases List.eq_nil_or_concat pre with rfl | ⟨l, b, rfl⟩
    · exact h.alloc.1
    · simp
  unfold vmaRemoveAlloced
  dsimp only
  rw [hseek, hold]
  cases destroy with
  | false => rfl
  | true => rfl

namespace Ordered

variable {sp : Space} {la lf pre post : List ℕ} {i : ℕ}

theorem proper (h : Ordered sp la lf) (hi : i ∈ la) : (sp.vmas i).Proper := by
  have hproper := h.ok.proper _ (Space.mem_areas hi)
  exact ⟨hproper.pos, hproper.stop⟩

/-- An area lies between those before it and those behind it. -/
theorem between (h : Ordered sp (pre ++ i :: post) lf) :
    (∀ j ∈ pre, (sp.vmas j).stop ≤ (sp.vmas i).va.toNat) ∧ ∀ j ∈ post,
    (sp.vmas i).stop ≤ (sp.vmas j).va.toNat := by
  have horder := h.ok.order
  rw [Space.areas_append, Space.areas_cons] at horder
  obtain ⟨-, hbehind, hbefore⟩ := List.pairwise_append.1 horder
  refine ⟨fun j hj => hbefore _ (Space.mem_areas hj) (sp.vmas i).body List.mem_cons_self,
    fun j hj => ?_⟩
  exact (List.pairwise_cons.1 hbehind).1 (sp.vmas j).body (Space.mem_areas hj)

/-- **The area that is given is taken out.** -/
theorem remove {s : Vm} {e : ℕ} (h : Ordered (s.envs e) (pre ++ i :: post) lf) (destroy : Bool) :
    vmaRemoveAlloced s e i destroy =
      ((if destroy then vmaRemovePages s e (s.vma e i).va (s.vma e i).len else pure s) >>= fun s₁ =>
        pure (true, s₁.modSpace e fun sp => vmaUnlink sp (pre.getLastD i) i)) := by
  refine h.lists.removeAlloced (fun j hj heq => ?_) destroy
  have hb := h.between.1 j hj
  have hpos := (h.proper (List.mem_append_left _ hj)).pos
  rw [Vma.stop] at hb
  change ((s.envs e).vmas j).va = ((s.envs e).vmas i).va at heq
  rw [heq] at hb
  omega

/-- **The area that covers an address is found.** -/
theorem lookup (h : Ordered sp (pre ++ i :: post) lf) {va : BitVec 32}
    (hc : (sp.vmas i).covers va = true) :
    vmaLookup sp va = .ok (some i) := by
  have hlen : (pre ++ i :: post).length ≤ nVma := by
    have hlen := h.lists.length_eq
    omega
  have hcov := (h.proper (List.mem_append_right _ List.mem_cons_self)).covers_iff.1 hc
  have hpre : ∀ j ∈ pre, (sp.vmas j).covers va = false := by
    intro j hj
    have hb := h.between.1 j hj
    rw [Vma.stop] at hb
    rw [← Bool.not_eq_true, (h.proper (List.mem_append_left _ hj)).covers_iff]
    omega
  have hseek := @Chain.seek_of_found _ sp.link (fun i => (sp.vmas i).covers va) i post pre nVma none
    sp.allocVmaList
    h.lists.alloc (by simp at hlen; omega) hpre hc
  unfold vmaLookup
  rw [hseek]
  rfl

end Ordered

namespace Sorted

variable {sp sp' : Space} {la lf pre post : List ℕ} {i : ℕ}

theorem congr (h : Sorted sp la lf) (hl : sp'.lists = sp.lists) : Sorted sp' la lf := by
  have hv : sp'.vmas = sp.vmas := congrArg Prod.fst hl
  refine ⟨h.lists.congr hl, ?_⟩
  rw [Space.areas, hv]
  exact h.ok

theorem fits (h : Sorted sp la lf) (hi : i ∈ la) : (sp.vmas i).Fits := by
  have hfits := h.ok.fits _ (Space.mem_areas hi)
  exact ⟨hfits.page, hfits.pos, hfits.low⟩

/-- **A new area comes to its place.** -/
theorem insert {el : ℕ} (h : Sorted sp (pre ++ post) (el :: lf)) {va len : BitVec 32}
    {type : VmaType}
    {src filesize cpyDst perm : BitVec 32} (hsrc : type = .binary → src ≠ 0 ∧ filesize ≠ 0)
    (hok : AreasOk (sp.areas pre ++ newArea sp el va len type src filesize cpyDst perm ::
      sp.areas post)) :
    ∃ sp', vmaNew sp va len type src filesize cpyDst perm = .ok (.made el, sp') ∧
      Sorted sp' (pre ++ el :: post) lf ∧
      NewAt sp sp' el (newArea sp el va len type src filesize cpyDst perm) := by
  obtain ⟨v, hv⟩ : ∃ v, newArea sp el va len type src filesize cpyDst perm = v := ⟨_, rfl⟩
  have hva : v.va = va := by rw [← hv]; rfl
  rw [hv] at hok
  obtain ⟨hok₁, hok₂, hbefore⟩ := areasOk_append.1 hok
  have hfits : v.Fits := hok₂.fits v List.mem_cons_self
  have hafter := (List.pairwise_cons.1 hok₂.order).1
  -- the areas on the two sides are on the two sides of the new address
  have hpre : ∀ i ∈ pre, ¬ va < (sp.vmas i).va := by
    intro i hi hlt
    have hb := hbefore _ (Space.mem_areas hi) v List.mem_cons_self
    rw [Vma.Before, Vma.body_va, hva] at hb
    rw [BitVec.lt_def] at hlt
    omega
  have hpost : ∀ i, post.head? = some i → va < (sp.vmas i).va := by
    intro i hi
    have hb := hafter _ (Space.mem_areas (List.mem_of_mem_head? hi))
    have hpos := hfits.pos
    rw [Vma.Before, Vma.body_va, hva] at hb
    rw [BitVec.lt_def]
    omega
  obtain ⟨pre', post', sp', hsplit, hpre', hpost', hnew, hinv, hat⟩ :=
    @vmaNew_place sp el _ lf h.lists va len type src filesize
    cpyDst perm hsrc (by rw [← hva]; exact hfits.page.1)
  obtain ⟨rfl, rfl⟩ := cut_unique hsplit hpre hpost hpre' hpost'
  rw [hv] at hat ⊢
  refine ⟨sp', hnew, ⟨hinv, ?_⟩, hat⟩
  have hne : ∀ j ∈ pre ++ post, j ≠ el := by
    rintro j hj rfl
    exact h.lists.not_mem_free hj List.mem_cons_self
  rw [Space.areas_append, Space.areas_cons, hat.body,
    Space.areas_congr fun j hj => hat.others j (hne j (List.mem_append_left _ hj)),
    Space.areas_congr fun j hj => hat.others j (hne j (List.mem_append_right _ hj))]
  exact hok

/-- `vma_remove_alloced` leaves every other area as it is. -/
theorem unlink_body {prev i : ℕ} (j : ℕ) (hj : j ≠ i) :
    ((vmaUnlink sp prev i).vmas j).body = (sp.vmas j).body := by
  have hset : ∀ (sp : Space) (p : Option ℕ) (k : ℕ),
      ((sp.modVma k fun v => { v with vmaLink := p }).vmas j).body =
      (sp.vmas j).body := by
    intro sp p k
    by_cases hk : j = k
    · subst hk
      rw [Space.modVma_self]
      rfl
    · rw [Space.modVma_of_ne _ _ hk]
  unfold vmaUnlink
  dsimp only
  rw [Space.modVma_of_ne _ _ hj, hset]
  split
  · rfl
  · rfl

/-- What is left after the area was taken out. -/
theorem unlinked (h : Sorted sp (pre ++ i :: post) lf) :
    Sorted (vmaUnlink sp (pre.getLastD i) i) (pre ++ post) (i :: lf) := by
  refine ⟨h.lists.unlink, ?_⟩
  have hnd := nodup_split h.lists.alloc.nodup
  have hne : ∀ j ∈ pre ++ post, j ≠ i := by
    rintro j hj rfl
    rcases List.mem_append.1 hj with hj | hj
    · exact hnd.1 hj
    · exact hnd.2 hj
  have hok := h.ok
  rw [Space.areas_congr fun j hj => unlink_body j (hne j hj)]
  rw [Space.areas_append, Space.areas_cons] at hok
  obtain ⟨hok₁, hok₂, hbefore⟩ := areasOk_append.1 hok
  rw [Space.areas_append, areasOk_append]
  refine ⟨hok₁, ⟨fun v hv => hok₂.fits v (List.mem_cons_of_mem _ hv),
    (List.pairwise_cons.1 hok₂.order).2⟩, ?_⟩
  exact fun v hv w hw => hbefore v hv w (List.mem_cons_of_mem _ hw)

end Sorted

/-! ### An environment with given areas -/

/-- The descriptors from `i` on are linked in a row up to `n`. -/
def linkUpTo (n i : ℕ) : Option ℕ := if i < n then some i else none

/-- The memory of an environment with the areas `as`, in the first descriptors. -/
def Space.ofAreas (pgdir : Option ℕ) (as : List Vma) (allocPages : BitVec 32) : Space where
  pgdir := pgdir
  vmas i := match as[i]? with
    | some v => { v with vmaLink := linkUpTo as.length (i + 1) }
    | none => Vma.unused (linkUpTo nVma (i + 1)) false
  allocVmaList := linkUpTo as.length 0
  freeVmaList := linkUpTo nVma as.length
  allocPages := allocPages

theorem chain_linkUpTo {next : ℕ → Option ℕ} {n : ℕ} : ∀ (k i : ℕ), i + k = n →
    (∀ j, i ≤ j → j < n → next j = linkUpTo n (j + 1)) → Chain next (linkUpTo n i) (List.range' i k)
  | 0, i, hk, _ => by
      rw [linkUpTo, if_neg (by omega)]
      rfl
  | k + 1, i, hk, hnext => by
      refine ⟨if_pos (by omega), ?_⟩
      rw [hnext i (Nat.le_refl i) (by omega)]
      exact chain_linkUpTo k (i + 1) (by omega) fun j hj hn => hnext j (by omega) hn

theorem ofAreas_sorted {as : List Vma} (hok : AreasOk (as.map Vma.body)) (hlen : as.length ≤ nVma)
    (pgdir : Option ℕ) (allocPages : BitVec 32) :
    Sorted (Space.ofAreas pgdir as allocPages) (List.range' 0 as.length)
      (List.range' as.length (nVma - as.length)) := by
  have hused : ∀ i, ∀ h : i < as.length, (Space.ofAreas pgdir as allocPages).vmas i =
      { as.get ⟨i, h⟩ with vmaLink := linkUpTo as.length (i + 1) } := by
    intro i h
    simp [Space.ofAreas, List.getElem?_eq_getElem h]
  have hfree : ∀ i, as.length ≤ i → (Space.ofAreas pgdir as allocPages).vmas i = Vma.unused
      (linkUpTo nVma (i + 1)) false := by
    intro i h
    simp [Space.ofAreas, List.getElem?_eq_none h]
  refine ⟨⟨chain_linkUpTo _ 0 (by omega) fun j _ hj => ?_, chain_linkUpTo _ as.length (by omega)
    fun j hj _ => ?_, ?_, fun i hi => ?_⟩,
    ?_⟩
  · rw [Space.link, hused j hj]
  · rw [Space.link, hfree j hj]
    rfl
  · have hrange : List.range' 0 as.length ++ List.range' as.length (nVma - as.length) =
        List.range nVma := by
      have happ := @List.range'_append_1 0 as.length (nVma - as.length)
      rw [Nat.zero_add, Nat.add_sub_cancel' hlen] at happ
      rw [happ, List.range_eq_range']
    rw [hrange]
  · rw [hfree i (List.mem_range'_1.1 hi).1]
    exact ⟨rfl, rfl, rfl, rfl, rfl, rfl, rfl⟩
  · have hareas : (Space.ofAreas pgdir as allocPages).areas (List.range' 0 as.length) =
        as.map Vma.body := by
      refine List.ext_getElem (by simp [Space.areas]) fun i h₁ h₂ => ?_
      have hi : i < as.length := by simpa using h₂
      simp only [Space.areas, List.getElem_map, List.getElem_range', Nat.zero_add,
        Nat.one_mul, hused i hi]
      rfl
    rw [hareas]
    exact hok

/-- An area of the program, with the pages that it may write to. -/
def userArea (va len : BitVec 32) : Vma := ⟨.anon, va, len, pteU ||| pteW, none, 0, 0, 0, false⟩

/-- A machine whose environments have the given areas. -/
def Vm.ofAreas (as : List Vma) : Vm := Vm.ofWords 4 frames_four (fun _ _ => 0) fun _ =>
    Space.ofAreas none as 0

end Jos
