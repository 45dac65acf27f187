/-
**Merging neighbours.**

`vma_list_merge` walks along the areas and joins neighbours with the same permission. A descriptor
that was merged away is on the free list when the walk follows its link, so that the walk goes on
there: two free descriptors look like neighbours, `vma_merge` does not find the second one among the
areas, and the function returns -1.

Main definitions:

* `Jos.SameAttrs`, `Jos.Normal` — what merging should keep, and what it should reach;
* `Jos.Merges` — `vma_list_merge` does both;
* `Jos.Unmerged` — there is nothing to merge.

Main results:

* `Jos.vmaListMerge_unmerged`, `Jos.vmaListMerge_full`, `Jos.vmaListMerge_fails` — the three
  outcomes;
* `Jos.merges_iff` — **when `vma_list_merge` does what it should**.
-/

import JosKernel.SortedAreas
import Mathlib.Data.List.Chain

set_option relaxedAutoImplicit false
set_option autoImplicit false

namespace Jos

open LinkedList Outcome

/-! ### What merging is for -/

/-- Permission, kind and page size at an address. -/
def AttrAt (as : List Vma) (a : BitVec 32) (x : BitVec 32 × VmaType × Bool) : Prop :=
  ∃ v ∈ as, v.covers a = true ∧ (v.perm, v.type, v.hps) = x

/-- The two lists of areas mean the same at every address. -/
def SameAttrs (as as' : List Vma) : Prop := ∀ a x, AttrAt as a x ↔ AttrAt as' a x

/-- Two neighbours that could be one area. -/
def Vma.Joins (v w : Vma) : Prop :=
  v.type ≠ .binary ∧ w.type ≠ .binary ∧ v.hps = w.hps ∧ v.va + v.len = w.va ∧ v.perm = w.perm

instance (v w : Vma) : Decidable (v.Joins w) := inferInstanceAs (Decidable (_ ∧ _ ∧ _ ∧ _ ∧ _))

/-- No two neighbours could be one area. -/
def Normal (as : List Vma) : Prop := as.IsChain fun v w => ¬ v.Joins w

instance (as : List Vma) : Decidable (Normal as) := inferInstanceAs (Decidable (List.IsChain _ as))

/-- **`vma_list_merge` returns 0, keeps the meaning of the areas and leaves nothing to merge.** -/
def Merges (s : Vm) (e : ℕ) (la : List ℕ) : Prop :=
  ∃ s' la' lf', vmaListMerge s e = .ok (true, s') ∧ VmaInv (s'.envs e) la' lf' ∧
    SameAttrs ((s.envs e).areas la) ((s'.envs e).areas la') ∧ Normal ((s'.envs e).areas la')

/-- No two neighbours pass the test of `vma_list_merge`, which does not look at `hps`. -/
def Unmerged (sp : Space) (la : List ℕ) : Prop :=
  la.IsChain fun i j => (sp.vmas i).mergesWith (sp.vmas j) = false

instance (sp : Space) (la : List ℕ) : Decidable (Unmerged sp la) :=
  inferInstanceAs (Decidable (List.IsChain _ la))

theorem Vma.mergesWith_iff {v w : Vma} :
    v.mergesWith w = true ↔ v.va + v.len = w.va ∧ v.perm = w.perm ∧ v.type ≠ .binary ∧
      w.type ≠ .binary := by
  simp [Vma.mergesWith, and_assoc]

theorem Unmerged.normal {sp : Space} {la : List ℕ} (h : Unmerged sp la) : Normal (sp.areas la) := by
  rw [Normal, Space.areas, List.isChain_map]
  refine h.imp fun i j hij hjoin => ?_
  obtain ⟨h₁, h₂, -, h₄, h₅⟩ := hjoin
  have hm : (sp.vmas i).mergesWith (sp.vmas j) = true := Vma.mergesWith_iff.2 ⟨h₄, h₅, h₁, h₂⟩
  rw [hij] at hm
  cases hm

/-- Where the first neighbours that pass the test are. -/
theorem first_merge (sp : Space) : ∀ la : List ℕ, Unmerged sp la ∨
    ∃ pre u w post, la = pre ++ u :: w :: post ∧ Unmerged sp (pre ++ [u]) ∧
      (sp.vmas u).mergesWith (sp.vmas w) = true
  | [] => Or.inl List.isChain_nil
  | [i] => Or.inl (List.isChain_singleton i)
  | i :: j :: la => by
      cases hm : (sp.vmas i).mergesWith (sp.vmas j) with
      | true => exact Or.inr ⟨[], i, j, la, rfl, List.isChain_singleton i, hm⟩
      | false =>
          rcases first_merge sp (j :: la) with hrest | ⟨pre, u, w, post, heq, hpre, hmerge⟩
          · exact Or.inl (List.isChain_cons_cons.2 ⟨hm, hrest⟩)
          · refine Or.inr ⟨i :: pre, u, w, post, by rw [heq, List.cons_append], ?_, hmerge⟩
            rw [List.cons_append]
            cases pre with
            | nil =>
                obtain ⟨rfl, -⟩ := List.cons.inj heq
                exact List.isChain_cons_cons.2 ⟨hm, hpre⟩
            | cons k pre =>
                obtain ⟨rfl, -⟩ := List.cons.inj heq
                exact List.isChain_cons_cons.2 ⟨hm, hpre⟩

/-! ### The walk -/

section

variable {s : Vm} {e : ℕ}

/-- The walk passes areas that are not merged. -/
theorem mergeFrom_skip {rest : List ℕ} : ∀ (mid : List ℕ) (n old : ℕ) (p : Option ℕ),
    Chain (s.envs e).link p (mid ++ rest) →
    Unmerged (s.envs e) (old :: mid) →
      mergeFrom e (mid.length + n) old p s = mergeFrom e n (mid.getLastD old) rest.head? s
  | [], n, old, p, hp, _ => by
      rw [List.length_nil, Nat.zero_add, List.getLastD_nil]
      rw [List.nil_append] at hp
      rw [hp.head_eq]
  | i :: mid, n, old, p, hp, hun => by
      obtain ⟨rfl, hp⟩ := hp
      obtain ⟨hno, hun⟩ := List.isChain_cons_cons.1 hun
      have hih := mergeFrom_skip mid n i _ hp hun
      rw [List.length_cons, Nat.succ_add, mergeFrom, List.getLastD_cons]
      change (if (s.vma e old).mergesWith (s.vma e i) = true then _ else _) = _
      have hno' : ¬ (s.vma e old).mergesWith (s.vma e i) = true := by
        rw [Bool.not_eq_true]
        exact hno
      rw [if_neg hno']
      exact hih

/-- Two neighbours as one area. -/
def Vma.joined (u w : Vma) : Vma := { u with len := u.len + w.len }

/-- What `vma_merge` leaves: the area behind `u` is the first free descriptor. -/
structure Merged (s s' : Vm) (e : ℕ) (pre post lf : List ℕ) (u w : ℕ) : Prop where
  lists : VmaInv (s'.envs e) (pre ++ u :: post) (w :: lf)
  areas : (s'.envs e).areas (pre ++ u :: post) =
    (s.envs e).areas pre ++ ((s.vma e u).joined (s.vma e w)).body :: (s.envs e).areas post

/-- **`vma_merge` of neighbours.** -/
theorem vmaMerge_merged {pre post lf : List ℕ} {u w : ℕ}
    (h : Ordered (s.envs e) (pre ++ u :: w :: post) lf) :
    ∃ s', vmaMerge s e u w = .ok (true, s') ∧ Merged s s' e pre post lf u w := by
  have hnd := h.lists.alloc.nodup
  have hu := nodup_split hnd
  have hw := @nodup_split _ (pre ++ [u]) post w (by simpa using hnd)
  have huw : w ≠ u := by
    rintro rfl
    exact hu.2 List.mem_cons_self
  obtain ⟨s₁, hs₁⟩ : ∃ s₁, (s.modSpace e fun sp => sp.modVma u fun v =>
      { v with len := v.len + (sp.vmas w).len }) = s₁ := ⟨_, rfl⟩
  have hsp₁ : s₁.envs e = (s.envs e).modVma u fun v =>
      { v with len := v.len + ((s.envs e).vmas w).len } := by
    rw [← hs₁, Vm.modSpace_self]
  have hvma₁ : ∀ j ≠ u, s₁.vma e j = s.vma e j := by
    intro j hj
    rw [Vm.vma, hsp₁, Space.modVma_of_ne _ _ hj]
    rfl
  have hu₁ : s₁.vma e u = (s.vma e u).joined (s.vma e w) := by
    rw [Vm.vma, hsp₁, Space.modVma_self]
    rfl
  have hlists₁ : VmaInv (s₁.envs e) (pre ++ u :: w :: post) lf := by
    rw [hsp₁]
    exact h.lists.modVma (h.lists.not_mem_free (by simp)) fun _ => rfl
  have hsplit : pre ++ u :: w :: post = (pre ++ [u]) ++ w :: post := by simp
  have hother : ∀ j ∈ pre ++ [u], (s₁.vma e j).va ≠ (s₁.vma e w).va := by
    intro j hj heq
    have hva : (s₁.vma e j).va = (s.vma e j).va := by
      by_cases hju : j = u
      · rw [hju, hu₁]
        rfl
      · rw [hvma₁ j hju]
    rw [hva, hvma₁ w huw] at heq
    have hord := h
    rw [hsplit] at hord
    have hb := hord.between.1 j hj
    have hpos := (hord.proper (List.mem_append_left _ hj)).pos
    change (s.vma e j).stop ≤ (s.vma e w).va.toNat at hb
    change 0 < (s.vma e j).len.toNat at hpos
    rw [← heq, Vma.stop] at hb
    omega
  rw [hsplit] at hlists₁
  have hlast : (pre ++ [u]).getLastD w = u := by simp
  have hremove := hlists₁.removeAlloced hother false
  refine ⟨s₁.modSpace e fun sp => vmaUnlink sp u w, ?_, ?_, ?_⟩
  · rw [vmaMerge, hs₁, hremove, hlast]
    rfl
  · have hun := hlists₁.unlink
    rw [hlast, List.append_assoc, List.singleton_append] at hun
    rw [Vm.modSpace_self]
    exact hun
  · obtain ⟨s₂, hs₂⟩ : ∃ s₂, (s₁.modSpace e fun sp => vmaUnlink sp u w) = s₂ := ⟨_, rfl⟩
    have hbody : ∀ j ≠ w, ((s₂.envs e).vmas j).body = (s₁.vma e j).body := by
      intro j hj
      rw [← hs₂, Vm.modSpace_self, Sorted.unlink_body j hj]
      rfl
    have hsame : ∀ j, j ≠ u → j ≠ w → ((s₂.envs e).vmas j).body = ((s.envs e).vmas j).body := by
      intro j hju hjw
      rw [hbody j hjw, hvma₁ j hju]
      rfl
    have hpre : (s₂.envs e).areas pre = (s.envs e).areas pre := Space.areas_congr fun j hj =>
      hsame j (by rintro rfl; exact hu.1 hj) (by rintro rfl; exact hw.1 (List.mem_append_left _ hj))
    have hpost : (s₂.envs e).areas post = (s.envs e).areas post := Space.areas_congr fun j hj =>
      hsame j (by rintro rfl; exact hu.2 (List.mem_cons_of_mem _ hj)) (by rintro rfl; exact hw.2 hj)
    rw [hs₂, Space.areas_append, Space.areas_cons, hbody u huw.symm, hu₁, hpre, hpost]

/-- **Nothing to merge.** -/
theorem vmaListMerge_unmerged {la lf : List ℕ} (h : VmaInv (s.envs e) la lf)
    (hun : Unmerged (s.envs e) la) :
    vmaListMerge s e = .ok (true, s) := by
  have hlen := h.length_eq
  cases la with
  | nil =>
      have hnil : (s.envs e).allocVmaList = none := h.alloc
      rw [vmaListMerge, hnil]
      rfl
  | cons old mid =>
      obtain ⟨hhead, hchain⟩ := h.alloc
      rw [vmaListMerge, hhead]
      have hskip := @mergeFrom_skip s e [] mid (2 * nVma - mid.length) old
        _ (by rw [List.append_nil]; exact hchain) hun
      rw [Nat.add_sub_cancel' (by simp at hlen; omega)] at hskip
      dsimp only
      refine Eq.trans hskip ?_
      cases 2 * nVma - mid.length with
      | zero => rfl
      | succ n => rfl

/-- The walk up to the first neighbours that are merged. -/
theorem vmaListMerge_reaches {pre post lf : List ℕ} {u w : ℕ}
    (h : VmaInv (s.envs e) (pre ++ u :: w :: post) lf)
    (hun : Unmerged (s.envs e) (pre ++ [u])) :
    ∃ n, vmaListMerge s e = mergeFrom e (n + 2) u (some w) s := by
  have hlen := h.length_eq
  cases pre with
  | nil =>
      obtain ⟨hhead, hnext, -⟩ := h.alloc
      refine ⟨2 * nVma - 2, ?_⟩
      rw [vmaListMerge, hhead]
      dsimp only
      rw [show (s.vma e u).vmaLink = some w from hnext]
      rfl
  | cons old mid =>
      obtain ⟨hhead, hchain⟩ := h.alloc
      refine ⟨2 * nVma - (mid ++ [u]).length - 2, ?_⟩
      rw [vmaListMerge, hhead]
      have hskip :=
        @mergeFrom_skip s e (w :: post) (mid ++ [u]) (2 * nVma - (mid ++ [u]).length) old _
        (by rw [List.append_assoc, List.singleton_append]; exact hchain) hun
      simp only [List.length_append, List.length_cons, List.length_nil, Nat.zero_add]
        at hskip hlen ⊢
      have hn : nVma = 105 := rfl
      rw [Nat.add_sub_cancel' (by omega)] at hskip
      rw [Nat.sub_add_cancel (by omega)]
      refine Eq.trans hskip ?_
      rw [List.getLastD_concat]
      rfl

/-- Neighbours without a gap make one area. -/
theorem Vma.toNat_joined {u w : Vma} (hu : u.Proper) (hw : w.Proper) (hmeet : u.va + u.len = w.va) :
    u.stop = w.va.toNat ∧ (u.joined w).len.toNat = u.len.toNat + w.len.toNat := by
  have hva : u.stop = w.va.toNat := by rw [← hmeet, hu.toNat_stop, Vma.stop]
  have hw := hw.stop
  refine ⟨hva, ?_⟩
  rw [Vma.stop] at hva
  change (u.len + w.len).toNat = _
  rw [BitVec.toNat_add]
  omega

theorem Vma.stop_joined {u w : Vma} (hu : u.Proper) (hw : w.Proper) (hmeet : u.va + u.len = w.va) :
    (u.joined w).stop = w.stop := by
  obtain ⟨hva, hlen⟩ := Vma.toNat_joined hu hw hmeet
  rw [Vma.stop] at hva
  rw [Vma.stop, Vma.stop, hlen]
  change u.va.toNat + _ = _
  omega

variable {pre post lf : List ℕ} {u w : ℕ}

/-- The areas are still apart. -/
theorem Merged.ordered {s' : Vm} (hm : Merged s s' e pre post lf u w)
    (h : Ordered (s.envs e) (pre ++ u :: w :: post) lf)
    (hmeet : (s.vma e u).va + (s.vma e u).len = (s.vma e w).va) :
    Ordered (s'.envs e) (pre ++ u :: post) (w :: lf) := by
  refine ⟨hm.lists, ?_⟩
  rw [hm.areas]
  have hu : (s.vma e u).Proper := h.proper (by simp)
  have hw : (s.vma e w).Proper := h.proper (by simp)
  have hstop := Vma.stop_joined hu hw hmeet
  have hok := h.ok
  rw [Space.areas_append, Space.areas_cons, Space.areas_cons] at hok
  obtain ⟨hpre, hrest, hbefore⟩ := List.pairwise_append.1 hok.order
  obtain ⟨-, hrest⟩ := List.pairwise_cons.1 hrest
  obtain ⟨hafter, hpost⟩ := List.pairwise_cons.1 hrest
  refine ⟨fun v hv => ?_, List.pairwise_append.2 ⟨hpre, List.pairwise_cons.2
    ⟨fun v hv => ?_, hpost⟩, fun v hv v' hv' => ?_⟩⟩
  · rcases List.mem_append.1 hv with hv | hv
    · exact hok.proper v (List.mem_append_left _ hv)
    · rcases List.mem_cons.1 hv with rfl | hv
      · refine ⟨?_, ?_⟩
        · change 0 < ((s.vma e u).joined (s.vma e w)).len.toNat
          rw [(Vma.toNat_joined hu hw hmeet).2]
          exact Nat.add_pos_left hu.pos _
        · change ((s.vma e u).joined (s.vma e w)).stop < _
          rw [hstop]
          exact hw.stop
      · exact hok.proper v (by simp [hv])
  · change ((s.vma e u).joined (s.vma e w)).stop ≤ _
    rw [hstop]
    exact hafter v hv
  · rcases List.mem_cons.1 hv' with rfl | hv'
    · exact hbefore v hv ((s.envs e).vmas u).body List.mem_cons_self
    · exact hbefore v hv v' (by simp [hv'])

/-- The walk after the first merge: it goes on along the free list. -/
theorem vmaListMerge_first (h : Ordered (s.envs e) (pre ++ u :: w :: post) lf)
    (hun : Unmerged (s.envs e) (pre ++ [u])) (hmerge : (s.vma e u).mergesWith (s.vma e w) = true) :
    ∃ s' n, vmaListMerge s e = mergeFrom e (n + 1) w lf.head? s' ∧
      Merged s s' e pre post lf u w := by
  obtain ⟨n, hreach⟩ := vmaListMerge_reaches h.lists hun
  obtain ⟨s', hs', hm⟩ := vmaMerge_merged h
  refine ⟨s', n, ?_, hm⟩
  rw [hreach, mergeFrom, if_pos hmerge, hs', ← hm.lists.free.2.head_eq]
  rfl

/-- **Without a free descriptor** the walk ends after one merge. -/
theorem vmaListMerge_full (h : Ordered (s.envs e) (pre ++ u :: w :: post) [])
    (hun : Unmerged (s.envs e) (pre ++ [u])) (hmerge : (s.vma e u).mergesWith (s.vma e w) = true) :
    ∃ s', vmaListMerge s e = .ok (true, s') ∧ Merged s s' e pre post [] u w := by
  obtain ⟨s', n, hs', hm⟩ := vmaListMerge_first h hun hmerge
  exact ⟨s', hs', hm⟩

/-- **With a free descriptor** the walk meets it behind the one that was merged away, and fails. -/
theorem vmaListMerge_fails (h : Ordered (s.envs e) (pre ++ u :: w :: post) lf) (hfree : lf ≠ [])
    (hun : Unmerged (s.envs e) (pre ++ [u])) (hmerge : (s.vma e u).mergesWith (s.vma e w) = true) :
    ∃ s', vmaListMerge s e = .ok (false, s') ∧ Merged s s' e pre post lf u w := by
  obtain ⟨f, lf', rfl⟩ := List.exists_cons_of_ne_nil hfree
  obtain ⟨s', n, hs', hm⟩ := vmaListMerge_first h hun hmerge
  have hord := hm.ordered h (Vma.mergesWith_iff.1 hmerge).1
  -- both descriptors are free, so they look like neighbours
  have hw := hm.lists.clean w List.mem_cons_self
  have hf := hm.lists.clean f (by simp)
  have hagain : (s'.vma e w).mergesWith (s'.vma e f) = true := by
    change ((s'.envs e).vmas w).mergesWith ((s'.envs e).vmas f) = true
    rw [Vma.mergesWith_iff, hw.va, hw.len, hw.perm, hw.type, hf.va, hf.perm, hf.type]
    decide
  obtain ⟨s₁, hs₁⟩ : ∃ s₁, (s'.modSpace e fun sp => sp.modVma w fun v =>
      { v with len := v.len + (sp.vmas f).len }) = s₁ := ⟨_, rfl⟩
  have hs₁' : s₁ = s' := by
    rw [← hs₁]
    exact Vm.modSpace_eq_self (Space.modVma_eq_self (by rw [hf.len]; simp))
  have hmiss : vmaMerge s' e w f = .ok (false, s') := by
    have hlen : (pre ++ u :: post).length ≤ nVma := by
      have hlen := hm.lists.length_eq
      omega
    have hseek := @Chain.seek_of_forall _ (s'.envs e).link
      (fun j => ((s'.envs e).vmas j).va == ((s'.envs e).vmas f).va &&
        ((s'.envs e).vmas j).len == ((s'.envs e).vmas f).len) _ nVma (s'.envs e).allocVmaList
          (s'.envs e).allocVmaList
      hm.lists.alloc hlen fun j hj => by
        have hpos := (hord.proper hj).pos
        rw [hf.len, Bool.and_eq_false_iff]
        refine Or.inr (beq_eq_false_iff_ne.2 fun hz => ?_)
        rw [hz] at hpos
        exact absurd hpos (by decide)
    rw [vmaMerge, hs₁, hs₁', vmaRemoveAlloced]
    dsimp only
    rw [hseek]
    rfl
  refine ⟨s', ?_, hm⟩
  rw [hs', List.head?_cons, mergeFrom, if_pos hagain, hmiss]
  rfl

/-! ### The condition -/

/-- Where areas are apart, the area at an address is the only one there. -/
theorem AreasApart.cover_unique {as bs : List Vma} {v w : Vma} (h : AreasApart (as ++ w :: bs))
    (hv : v ∈ as ++ w :: bs) {a : BitVec 32} (hva : v.covers a = true) (hwa : w.covers a = true) :
    v = w := by
  have hv' := (h.proper v hv).covers_iff.1 hva
  have hw' := (h.proper w (by simp)).covers_iff.1 hwa
  obtain ⟨-, hbehind, hbefore⟩ := List.pairwise_append.1 h.order
  rcases List.mem_append.1 hv with hv | hv
  · have hb : v.va.toNat + v.len.toNat ≤ w.va.toNat := hbefore v hv w List.mem_cons_self
    omega
  · rcases List.mem_cons.1 hv with rfl | hv
    · rfl
    · have hb : w.va.toNat + w.len.toNat ≤ v.va.toNat := (List.pairwise_cons.1 hbehind).1 v hv
      omega

/-- Joining two neighbours of which an attribute is the same changes it at no address. -/
theorem covered_joined {α : Type} (g : Vma → α) (hg : ∀ v w : Vma, g (v.joined w) = g v)
    {as bs : List Vma} {u w : Vma} (hu : u.Proper) (hw : w.Proper) (hj : (u.joined w).Proper)
    (hmeet : u.va + u.len = w.va) (hattr : g w = g u) (a : BitVec 32) (x : α) :
    (∃ v ∈ as ++ u :: w :: bs, v.covers a = true ∧ g v = x) ↔
      ∃ v ∈ as ++ u.joined w :: bs, v.covers a = true ∧ g v = x := by
  obtain ⟨hva, hlen⟩ := Vma.toNat_joined hu hw hmeet
  rw [Vma.stop] at hva
  have hcover : ∀ a, (u.joined w).covers a = true ↔ u.covers a = true ∨ w.covers a = true := by
    intro a
    rw [hj.covers_iff, hu.covers_iff, hw.covers_iff, hlen]
    change u.va.toNat ≤ _ ∧ _ < u.va.toNat + _ ↔ _
    omega
  constructor
  · rintro ⟨v, hv, hc, hx⟩
    rw [List.mem_append, List.mem_cons, List.mem_cons] at hv
    rcases hv with hv | rfl | rfl | hv
    · exact ⟨v, List.mem_append_left _ hv, hc, hx⟩
    · exact ⟨v.joined w, by simp, (hcover a).2 (Or.inl hc), (hg v w).trans hx⟩
    · exact ⟨u.joined v, by simp, (hcover a).2 (Or.inr hc), ((hg u v).trans hattr.symm).trans hx⟩
    · exact ⟨v, by simp [hv], hc, hx⟩
  · rintro ⟨v, hv, hc, hx⟩
    rw [List.mem_append, List.mem_cons] at hv
    rcases hv with hv | rfl | hv
    · exact ⟨v, List.mem_append_left _ hv, hc, hx⟩
    · rcases (hcover a).1 hc with hc | hc
      · exact ⟨u, by simp, hc, (hg u w).symm.trans hx⟩
      · exact ⟨w, by simp, hc, (hattr.trans (hg u w).symm).trans hx⟩
    · exact ⟨v, by simp [hv], hc, hx⟩

/-- The merge of the first neighbours keeps the meaning of the areas exactly if their attributes are
the same. -/
theorem Merged.sameAttrs_iff {s' : Vm} (hm : Merged s s' e pre post lf u w)
    (h : Ordered (s.envs e) (pre ++ u :: w :: post) lf)
    (hmerge : (s.vma e u).mergesWith (s.vma e w) = true) :
    SameAttrs ((s.envs e).areas (pre ++ u :: w :: post)) ((s'.envs e).areas (pre ++ u :: post)) ↔
      (s.vma e u).hps = (s.vma e w).hps ∧ (s.vma e u).type = (s.vma e w).type := by
  obtain ⟨hmeet, hperm, -, -⟩ := Vma.mergesWith_iff.1 hmerge
  have hapart := (hm.ordered h hmeet).ok
  have hu : (s.vma e u).Proper := h.proper (by simp)
  have hw : (s.vma e w).Proper := h.proper (by simp)
  rw [hm.areas] at hapart ⊢
  have hj := hapart.proper ((s.vma e u).joined (s.vma e w)).body (by simp)
  constructor
  · intro hsame
    -- the first address of the second area
    have hcov : (s.vma e w).covers (s.vma e w).va = true := by
      have hpos := hw.pos
      rw [hw.covers_iff]
      omega
    have hcov' : ((s.vma e u).joined (s.vma e w)).body.covers (s.vma e w).va = true := by
      obtain ⟨hva, hlen⟩ := Vma.toNat_joined hu hw hmeet
      have hpos := hw.pos
      rw [Vma.stop] at hva
      rw [hj.covers_iff, Vma.body_va, Vma.body_len, hlen]
      change (s.vma e u).va.toNat ≤ _ ∧ _ < (s.vma e u).va.toNat + _
      omega
    obtain ⟨v, hv, hc, hx⟩ :=
      (hsame (s.vma e w).va _).1 ⟨(s.vma e w).body, by simp [Space.areas, Vm.vma], hcov, rfl⟩
    obtain rfl := hapart.cover_unique hv hc hcov'
    obtain ⟨-, htype, hhps⟩ : _ ∧ _ ∧ _ := by simpa using hx
    exact ⟨hhps, htype⟩
  · rintro ⟨hhps, htype⟩
    rw [Space.areas_append, Space.areas_cons, Space.areas_cons]
    refine @covered_joined _ (fun v => (v.perm, v.type, v.hps)) (fun _ _ => rfl) _ _
      (s.vma e u).body (s.vma e w).body
      ⟨hu.pos, hu.stop⟩ ⟨hw.pos, hw.stop⟩ hj hmeet ?_
    change ((s.vma e w).perm, (s.vma e w).type, (s.vma e w).hps) =
      ((s.vma e u).perm, (s.vma e u).type, (s.vma e u).hps)
    rw [hperm, htype, hhps]

/-- **When `vma_list_merge` does what it should**: there is nothing to merge, or there is no free
descriptor and one merge is enough. -/
theorem merges_iff (s : Vm) (e : ℕ) (la lf : List ℕ) (h : Ordered (s.envs e) la lf) :
    Merges s e la ↔ Unmerged (s.envs e) la ∨
      lf = [] ∧ ∃ pre u w post, la = pre ++ u :: w :: post ∧ Unmerged (s.envs e) (pre ++ [u]) ∧
        (s.vma e u).mergesWith (s.vma e w) = true ∧ (s.vma e u).hps = (s.vma e w).hps ∧
        (s.vma e u).type = (s.vma e w).type ∧
        Normal ((s.envs e).areas pre ++ ((s.vma e u).joined (s.vma e w)).body ::
          (s.envs e).areas post) := by
  constructor
  · rintro ⟨s', la', lf', hs', hinv, hsame, hnormal⟩
    rcases first_merge (s.envs e) la with hun | ⟨pre, u, w, post, rfl, hun, hmerge⟩
    · exact Or.inl hun
    · cases lf with
      | cons f lf =>
          obtain ⟨s'', hs'', -⟩ := vmaListMerge_fails h (by simp) hun hmerge
          rw [hs''] at hs'
          exact absurd hs' (by simp)
      | nil =>
          obtain ⟨s'', hs'', hm⟩ := vmaListMerge_full h hun hmerge
          obtain rfl : s'' = s' := by
            rw [hs''] at hs'
            exact congrArg Prod.snd (Except.ok.inj hs')
          obtain rfl : la' = pre ++ u :: post := hinv.alloc.unique hm.lists.alloc
          obtain ⟨hhps, htype⟩ := (hm.sameAttrs_iff h hmerge).1 hsame
          rw [hm.areas] at hnormal
          exact Or.inr ⟨rfl, pre, u, w, post, rfl, hun, hmerge, hhps, htype, hnormal⟩
  · rintro (hun | ⟨rfl, pre, u, w, post, rfl, hun, hmerge, hhps, htype, hnormal⟩)
    · exact ⟨s, la, lf, vmaListMerge_unmerged h.lists hun, h.lists, fun _ _ => Iff.rfl, hun.normal⟩
    · obtain ⟨s', hs', hm⟩ := vmaListMerge_full h hun hmerge
      refine ⟨s', _, _, hs', hm.lists, (hm.sameAttrs_iff h hmerge).2 ⟨hhps, htype⟩, ?_⟩
      rw [hm.areas]
      exact hnormal

end

/-- Two areas with a gap between them. -/
theorem merges_iff_gap :
    Merges (Vm.ofAreas [userArea 0x1000 0x1000, userArea 0x3000 0x1000]) 0 [0, 1] :=
  (merges_iff (Vm.ofAreas [userArea 0x1000 0x1000, userArea 0x3000 0x1000]) 0 [0, 1] _
    (@ofAreas_sorted [userArea 0x1000 0x1000, userArea 0x3000 0x1000] (by decide) (by decide) none
      0).ordered).2 (Or.inl (by decide))

/-- Two areas without a gap: `vma_list_merge` returns -1. -/
theorem neighbours_not_merged :
    (∃ lf, Ordered ((Vm.ofAreas [userArea 0x1000 0x1000, userArea 0x2000 0x1000]).envs 0)
      [0, 1] lf) ∧
    ¬ Merges (Vm.ofAreas [userArea 0x1000 0x1000, userArea 0x2000 0x1000]) 0 [0, 1] := by
  have hord := (@ofAreas_sorted [userArea 0x1000 0x1000, userArea 0x2000
    0x1000] (by decide) (by decide) none 0).ordered
  refine ⟨⟨_, hord⟩, ?_⟩
  rintro ⟨s', la', lf', hs', -⟩
  obtain ⟨s'', hs'', -⟩ := @vmaListMerge_fails (Vm.ofAreas
    [userArea 0x1000 0x1000, userArea 0x2000 0x1000]) 0 [] [] _ 0 1 hord (by decide) (by decide)
    (by decide)
  rw [hs''] at hs'
  exact absurd hs' (by simp)

end Jos
