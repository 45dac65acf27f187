/-
**The area that a range becomes.**

`vma_split_lookup` cuts a range out of the area that it lies in.  When the area is to stay its
descriptor becomes that of the range, whatever the alignment of the range is.

Main definitions:

* `Jos.Vma.Splittable` — an area that is split.

Main results:

* `Jos.vmaSizeCheck_bound_iff` — what `vma_size_check` is worth;
* `Jos.vmaSplitLookup_range` — **the area that is split off has exactly the addresses of the call**;
* `Jos.vmaChangePerm_range` — `vma_change_perm` of it goes over the pages of the range.
-/

import JosKernel.Protect

set_option relaxedAutoImplicit false
set_option autoImplicit false

namespace Jos

open LinkedList Outcome

/-- An area that `vma_split_lookup` splits. -/
def Vma.Splittable (v : Vma) : Prop := v.type = .anon ∧ v.hps = false

instance (v : Vma) : Decidable v.Splittable := inferInstanceAs (Decidable (_ ∧ _))

/-! ### The pages of a range -/

/-- **What the check is worth** for an address inside the area. -/
theorem vmaSizeCheck_bound_iff {v : Vma} (hv : v.Proper) {va size : BitVec 32}
    (hc : v.covers va = true) :
    (vmaSizeCheck va size v = true → va.toNat + size.toNat ≤ v.stop) ↔
      va.toNat + size.toNat < 2 ^ 32 := by
  have hcov := hv.covers_iff.1 hc
  have hstop := hv.stop
  have hsize := size.isLt
  rw [vmaSizeCheck, Bool.not_eq_true', decide_eq_false_iff_not, BitVec.lt_def, BitVec.le_def,
    BitVec.toNat_add va, hv.toNat_stop, Vma.stop]
  omega

/-- A range has fewer pages than the address space. -/
theorem pageCount_lt (size : BitVec 32) : pageCount size < 2 ^ 20 := by
  have hlt := (roundUp size (BitVec.ofNat 32 pgSize)).isLt
  rw [pageCount, pgSize]
  omega

/-- Every page of a range inside an area begins inside the area. -/
theorem Vma.Fits.page_lt {v : Vma} (hv : v.Fits) {va size : BitVec 32}
    (hinside : va.toNat + size.toNat ≤ v.stop) {k : ℕ} (hk : k < pageCount size) :
    va.toNat + k * 4096 < v.stop := by
  have hU : uTop.toNat = 4005560320 := rfl
  have hlow := hv.low
  have hstop : v.stop = v.va.toNat + v.len.toNat := rfl
  have hk : k < (roundUp size (BitVec.ofNat 32 pgSize)).toNat / 4096 := hk
  have hlt := (roundUp size (BitVec.ofNat 32 pgSize)).isLt
  rw [toNat_roundUp (by omega), pagesOf] at hk
  omega

/-- The pages of a range inside an area lie below `UTOP`. -/
theorem Vma.Fits.lowPages {v : Vma} (hv : v.Fits) {va size : BitVec 32}
    (hinside : va.toNat + size.toNat ≤ v.stop) : LowPages va 0 (pageCount size) := by
  intro k hk
  have hlt := hv.page_lt hinside hk
  rw [Nat.zero_add]
  exact Nat.lt_of_lt_of_le hlt hv.low

section

variable {s : Vm} {e i : ℕ} {la lf : List ℕ} {va size : BitVec 32}

/-- A part that is split off leaves the descriptors in use alone. -/
theorem vmaSplitOff_keeps (h : VmaInv (s.envs e) la lf) (hi : i ∈ la) (va len perm : BitVec 32) :
    Ends (fun _ => True) (fun s' => (s'.vma e i).body = (s.vma e i).body ∧ ∃ la' lf',
      VmaInv (s'.envs e) la' lf' ∧ i ∈ la')
      (vmaSplitOff s e va len .anon perm) := by
  have hbody : Ends (fun _ => True) (fun s' => (s'.vma e i).body = (s.vma e i).body)
      (vmaSplitOff s e va len .anon perm) := by
    rw [vmaSplitOff, ends_bind, Vm.onSpace, ends_bind]
    have hnew : Ends (fun _ => True) (fun r => (r.2.vmas i).body = ((s.envs e).vmas i).body)
        (vmaNew (s.envs e) va len .anon 0 0 0 perm) := by
      by_cases hpage : va.toNat % 4096 = 0
      · cases lf with
        | nil =>
            rw [vmaNew_empty h, if_neg (by simp)]
            exact ends_ite (fun _ => rfl) fun _ => True.intro
        | cons el lf =>
            obtain ⟨pre, post, sp', rfl, -, -, hmade, -, hat⟩ :=
              @vmaNew_place (s.envs e) el la lf h va len .anon 0 0 0 perm (by simp) hpage
            rw [hmade]
            exact hat.others i fun hc => h.not_mem_free hi (hc ▸ List.mem_cons_self)
      · -- the address of the part is not the start of a page
        rw [vmaNew_unaligned hpage]
        rfl
    refine hnew.post fun r hr => ?_
    change (((s.modSpace e fun _ => r.2).envs e).vmas i).body = _
    rw [Vm.modSpace_self]
    exact hr
  refine Ends.mono ((vmaSplitOff_ends h va len .anon perm).and hbody) (fun _ _ => True.intro) ?_
  rintro s' ⟨⟨la', lf', hinv, hsub⟩, hb⟩
  exact ⟨hb, la', lf', hinv, hsub hi⟩

/-- **The range becomes the area of the descriptor**: it starts at `va`, and its length is
`size`. -/
theorem vmaSplitParts_range {V : Vma} (h : VmaInv (s.envs e) la lf) (hi : i ∈ la)
    (hV : s.vma e i = V) (hc : V.covers va = true) (hsize : vmaSizeCheck va size V = true)
    (hanon : V.type = .anon) :
    Ends (fun _ => True) (fun s' => ((s'.vma e i).va = va ∧ (s'.vma e i).len = size) ∧ ∃ la' lf',
      VmaInv (s'.envs e) la' lf' ∧ i ∈ la')
      (vmaSplitParts s e i V va size false) := by
  have hlow : V.va ≤ va := by
    rw [Vma.covers, decide_eq_true_eq] at hc
    exact hc.1
  have hstop : ¬ V.va + V.len < va + size := by
    rw [vmaSizeCheck, Bool.not_eq_true', decide_eq_false_iff_not] at hsize
    exact fun hlt => hsize ⟨hlt, hlow⟩
  -- the second cut
  have hright : ∀ (s₁ : Vm) (la₁ lf₁ : List ℕ), VmaInv (s₁.envs e) la₁ lf₁ → i ∈ la₁ →
      (s₁.vma e i).va = va →
      (s₁.vma e i).len = V.len - (va - V.va) → Ends (fun _ => True)
        (fun s' => ((s'.vma e i).va = va ∧ (s'.vma e i).len = size) ∧ ∃ la' lf',
          VmaInv (s'.envs e) la' lf' ∧ i ∈ la')
        (if va + size < V.va + V.len then
          vmaSplitOff (s₁.modSpace e fun sp => sp.modVma i fun v =>
            { v with len := v.len - (V.len - (va + size - V.va)) }) e (va + size)
            (V.len - (va + size - V.va)) V.type V.perm else pure s₁) := by
    intro s₁ la₁ lf₁ h₁ hi₁ hva₁ hlen₁
    refine ends_ite (fun _ => ?_) fun hlt => ⟨⟨hva₁, ?_⟩, la₁, lf₁, h₁, hi₁⟩
    · obtain ⟨s₂, hs₂⟩ : ∃ s₂, (s₁.modSpace e fun sp => sp.modVma i fun v =>
          { v with len := v.len - (V.len - (va + size - V.va)) }) = s₂ :=
        ⟨_, rfl⟩
      have h₂ : VmaInv (s₂.envs e) la₁ lf₁ := by
        rw [← hs₂, Vm.modSpace_self]
        exact h₁.modVma (h₁.not_mem_free hi₁) fun _ => rfl
      have hself : s₂.vma e i = { s₁.vma e i with len := (s₁.vma e i).len -
          (V.len - (va + size - V.va)) } := by
        rw [← hs₂, Vm.vma, Vm.modSpace_self, Space.modVma_self]
        rfl
      rw [hanon, hs₂]
      refine (vmaSplitOff_keeps h₂ hi₁ _ _ _).post ?_
      rintro s' ⟨hbody, hinv⟩
      rw [hself] at hbody
      refine ⟨⟨(congrArg (·.va) hbody).trans hva₁, (congrArg (·.len) hbody).trans ?_⟩, hinv⟩
      change (s₁.vma e i).len - (V.len - (va + size - V.va)) = size
      rw [hlen₁]
      bv_omega
    · have heq : va + size = V.va + V.len := by bv_omega
      rw [hlen₁]
      bv_omega
  simp only [vmaSplitParts, Bool.false_eq_true, if_false]
  refine Ends.ite_bind (ends_ite (fun _ => ?_) fun hlt => ?_)
  · obtain ⟨s₁, hs₁⟩ : ∃ s₁, (s.modSpace e fun sp => sp.modVma i fun v =>
        { v with va := va, len := v.len - (va - V.va) }) = s₁ := ⟨_, rfl⟩
    have h₁ : VmaInv (s₁.envs e) la lf := by
      rw [← hs₁, Vm.modSpace_self]
      exact h.modVma (h.not_mem_free hi) fun _ => rfl
    have hself : s₁.vma e i = { V with va := va, len := V.len - (va - V.va) } := by
      rw [← hs₁, Vm.vma, Vm.modSpace_self, Space.modVma_self, ← hV]
      rfl
    rw [hanon, hs₁]
    refine (vmaSplitOff_keeps h₁ hi _ _ _).post ?_
    rintro s₂ ⟨hbody, la₂, lf₂, h₂, hi₂⟩
    rw [hself] at hbody
    rw [← hanon]
    exact hright s₂ la₂ lf₂ h₂ hi₂ (congrArg (·.va) hbody) (congrArg (·.len) hbody)
  · have heq : va = V.va := by bv_omega
    refine hright s la lf h hi (by rw [hV, heq]) ?_
    rw [hV, heq, BitVec.sub_self, BitVec.sub_zero]

/-- **What `vma_split_lookup` returns**: the area that covers the address, whose addresses are those
of the range now. -/
theorem vmaSplitLookup_range {vm : Vm} (h : VmaInv (s.envs e) la lf)
    (hrun : vmaSplitLookup s e va size false = .ok (some i, vm)) :
    vmaLookup (s.envs e) va = .ok (some i) ∧ (s.vma e i).Splittable ∧
      vmaSizeCheck va size (s.vma e i) = true ∧
      AreasOnly s vm e ∧ ((vm.vma e i).va = va ∧ (vm.vma e i).len = size) ∧ ∃ la' lf',
        VmaInv (vm.envs e) la' lf' ∧ i ∈ la' := by
  unfold vmaSplitLookup at hrun
  cases hlook : vmaLookup (s.envs e) va with
  | error c =>
      rw [hlook] at hrun
      exact nomatch hrun
  | ok r =>
      rw [hlook] at hrun
      cases r with
      | none => exact nomatch hrun
      | some j =>
          obtain ⟨hj, hc⟩ := h.found hlook
          have hends : Ends (fun _ => True)
              (fun r => r.1 = some i → i = j ∧ (s.vma e j).Splittable ∧
              vmaSizeCheck va size (s.vma e j) = true ∧ AreasOnly s r.2 e ∧
              ((r.2.vma e j).va = va ∧ (r.2.vma e j).len = size) ∧
              ∃ la' lf', VmaInv (r.2.envs e) la' lf' ∧ j ∈ la')
              (vmaSplitLookup s e va size false) := by
            unfold vmaSplitLookup
            rw [hlook]
            change Ends _ _ (if _ then _ else _)
            refine ends_ite (fun _ => True.intro) fun _ => ends_ite (fun _ hc => nomatch hc)
              fun hhps =>
              ends_ite (fun _ hc => nomatch hc) fun hanon => ends_ite (fun _ hc => nomatch hc)
                fun hsize => ?_
            have hanon : (s.vma e j).type = .anon := of_not_not hanon
            have hsize : vmaSizeCheck va size (s.vma e j) = true := of_not_not hsize
            rw [if_neg Bool.false_ne_true]
            change Ends _ _ (vmaSplitParts s e j (s.vma e j) va size false >>= _)
            rw [ends_bind]
            refine Ends.mono ((vmaSplitParts_range h hj rfl hc hsize hanon).and
              (vmaSplitParts_only s e j _ va size false))
              (fun _ _ => True.intro) ?_
            rintro vm' ⟨hrange, honly⟩ heq
            exact ⟨(Option.some.inj heq).symm, ⟨hanon, Bool.eq_false_of_not_eq_true hhps⟩, hsize,
              honly, hrange⟩
          have hres := hends.of_ok (by
            unfold vmaSplitLookup
            rw [hlook]
            exact hrun)
          obtain ⟨rfl, hrest⟩ := hres rfl
          exact ⟨rfl, hrest⟩

/-- Without an area `vma_split_lookup` changes nothing. -/
theorem vmaSplitLookup_same (h : VmaInv (s.envs e) la lf) (va size : BitVec 32) :
    Ends (fun _ => True) (fun r => r.1 = none → r.2 = s) (vmaSplitLookup s e va size false) := by
  rw [vmaSplitLookup, ends_bind]
  refine (vmaLookup_ends h va).mono (fun _ _ => True.intro) fun r _ => ?_
  cases r with
  | none => exact fun _ => rfl
  | some i =>
      refine ends_ite (fun _ => True.intro) fun _ => ends_ite (fun _ _ => rfl) fun _ =>
        ends_ite (fun _ _ => rfl) fun _ =>
        ends_ite (fun _ _ => rfl) fun _ => ?_
      rw [if_neg Bool.false_ne_true]
      change Ends _ _ (vmaSplitParts s e i (s.vma e i) va size false >>= _)
      rw [ends_bind]
      exact (vmaSplitParts_only s e i _ va size false).mono (fun _ _ => True.intro) fun _ _ hc => by
        cases hc

/-- Only the areas of `e` change. -/
theorem AreasOnly.others {s' : Vm} (h : AreasOnly s s' e) {e' : ℕ} (he : e' ≠ e) :
    s'.envs e' = s.envs e' := by
  rw [h.same]
  exact Function.update_of_ne he ..

/-- `vma_change_perm` of the area that the range is now: the loop goes over the pages of the
range. -/
theorem vmaChangePerm_range {vm s₂ : Vm} {perm : BitVec 32} (honly : AreasOnly s vm e)
    (hva : (vm.vma e i).va = va) (hlen : (vm.vma e i).len = size)
    (hrun : vmaChangePerm vm e i perm = .ok s₂) :
    ∃ s₁, AreasOnly s s₁ e ∧ changePermFrom e va perm (pageCount size) 0 s₁ = .ok s₂ := by
  -- the descriptor has its permission before the loop
  obtain ⟨s₁, hs₁⟩ :
      ∃ s₁, (vm.modSpace e fun sp => sp.modVma i fun v => { v with perm := perm }) = s₁ := ⟨_, rfl⟩
  have honly₁ : AreasOnly s s₁ e := by
    rw [← hs₁]
    exact honly.trans (AreasOnly.modVma vm e i _)
  have hself : s₁.vma e i = { vm.vma e i with perm := perm } := by
    rw [← hs₁, Vm.vma, Vm.modSpace_self, Space.modVma_self]
    rfl
  rw [vmaChangePerm, hs₁, hself] at hrun
  change changePermFrom e (vm.vma e i).va perm (pageCount (vm.vma e i).len) 0 s₁ = _ at hrun
  rw [hva, hlen] at hrun
  exact ⟨s₁, honly₁, hrun⟩

end

end Jos
