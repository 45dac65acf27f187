/-
**The check of a range.**

`sys_vma_destroy`, `sys_vma_protect` and `sys_vma_advise` work on a range of addresses, and
`vma_size_check` is to make sure that it lies in one area.  The sum `va + size` is computed modulo
`2 ^ 32`: a range that goes past the end of the address space passes.  A range that does lie in the
area can share a 4 MB slot of the directory with pages outside it, and these are lost with it.

Main definitions:

* `Jos.RangeCall` — the three calls, and whether one comes to the check;
* `Jos.KeepsInside` — every area is one from before or lies in the given one;
* `Jos.StaysInside` — what a call is not to do outside its area;
* `Jos.RangeCall.Spares` — the condition.

Main results:

* `Jos.vmaSplitLookup_inside` — a split leaves only parts of the area;
* `Jos.vmaListMerge_coversOnly` — merging covers no address that was not covered;
* `Jos.range_inside_iff` — **when a call stays inside its area**.
-/

import JosKernel.RangePages

set_option relaxedAutoImplicit false
set_option autoImplicit false

namespace Jos

open LinkedList Outcome

/-! ### The calls and the check -/

/-- The system calls on a range of addresses. -/
inductive RangeCall
  | destroy | protect (perm : BitVec 32) | advise (attr : BitVec 32)
  deriving DecidableEq, Repr

/-- `vma_split_lookup` comes to its check for the area `v`. -/
def Vma.Splits (v : Vma) : Prop :=
  vmaConsistencyCheck v v.type = true ∧ v.hps = false ∧ v.type = .anon

instance (v : Vma) : Decidable v.Splits := inferInstanceAs (Decidable (_ ∧ _ ∧ _))

/-- The call comes to the check for the area `v`. -/
def RangeCall.Checks (v : Vma) : RangeCall → Prop
  | .destroy => v.Splits
  | .protect perm => v.perm ≠ perm ∧ v.Splits
  | .advise _ => True

/-! ### Areas inside an area -/

/-- The page `q` is none of the area. -/
def Vma.Beside (v : Vma) (q : ℕ) : Prop := q * 4096 < v.va.toNat ∨ v.stop ≤ q * 4096

/-- An area inside another one. -/
def Vma.Within (w v : Vma) : Prop := v.va.toNat ≤ w.va.toNat ∧ w.stop ≤ v.stop

/-- **Every area is one from before, or lies in `v`**; the descriptors `kept` are in use. -/
def KeepsInside (sp₀ : Space) (la : List ℕ) (v : Vma) (kept : List ℕ) (sp : Space) : Prop :=
  ∃ la' lf', VmaInv sp la' lf' ∧ kept ⊆ la' ∧ ∀ j ∈ la', j ∈ la ∧
    (sp.vmas j).body = (sp₀.vmas j).body ∨ (sp.vmas j).Within v

theorem Vma.Within.congr {v w w' : Vma} (h : w.Within v) (hb : w'.body = w.body) : w'.Within v := by
  change w'.body.Within v
  rw [hb]
  exact h

namespace KeepsInside

variable {sp₀ sp : Space} {la kept : List ℕ} {v : Vma}

/-- **`vma_new`** for a part of the area. -/
theorem vmaNew (h : KeepsInside sp₀ la v kept sp) {va len perm : BitVec 32}
    (hin : va.toNat % 4096 = 0 → v.va.toNat ≤ va.toNat ∧
      va.toNat + (roundUp len (BitVec.ofNat 32 pgSize)).toNat ≤ v.stop) :
    Ends (fun _ => True) (fun r => KeepsInside sp₀ la v kept r.2 ∧ ∀ j ∈ kept,
      (r.2.vmas j).body = (sp.vmas j).body)
      (vmaNew sp va len .anon 0 0 0 perm) := by
  obtain ⟨la', lf', hinv, hkept, hall⟩ := h
  by_cases hpage : va.toNat % 4096 = 0
  · cases lf' with
    | nil =>
        rw [vmaNew_empty hinv, if_neg (by simp)]
        refine ends_ite (fun _ => ⟨⟨la', [], hinv, hkept, hall⟩, fun _ _ => rfl⟩) fun _ =>
          True.intro
    | cons el lf' =>
        obtain ⟨pre, post, sp', rfl, -, -, hnew, hinv', hat⟩ :=
          @vmaNew_place sp el la' lf' hinv va len .anon 0 0 0 perm (by simp) hpage
        rw [hnew]
        refine ⟨⟨_, _, hinv', fun j hj => ?_, fun j hj => ?_⟩, fun j hj => hat.others j ?_⟩
        rotate_right
        · rintro rfl
          exact hinv.not_mem_free (hkept hj) List.mem_cons_self
        · have hj' := hkept hj
          simp only [List.mem_append, List.mem_cons] at hj' ⊢
          exact hj'.imp_right Or.inr
        by_cases hjel : j = el
        · subst hjel
          refine Or.inr (Vma.Within.congr (w := newArea sp j va len .anon 0 0 0 perm)
            (hin hpage) ?_)
          rw [hat.body]
          rfl
        · have hj' : j ∈ pre ++ post := by
            simp only [List.mem_append, List.mem_cons, hjel, false_or] at hj ⊢
            exact hj
          rcases hall j hj' with ⟨hla, hb⟩ | hw
          · exact Or.inl ⟨hla, (hat.others j hjel).trans hb⟩
          · exact Or.inr (hw.congr (hat.others j hjel))
  · rw [vmaNew_unaligned hpage]
    exact ⟨⟨la', lf', hinv, hkept, hall⟩, fun _ _ => rfl⟩

/-- A descriptor is changed to describe a part of the area. -/
theorem modVma (h : KeepsInside sp₀ la v kept sp) {i : ℕ} {f : Vma → Vma}
    (hlink : ∀ w, (f w).vmaLink = w.vmaLink) (hi : i ∈ kept) (hin : (f (sp.vmas i)).Within v) :
    KeepsInside sp₀ la v kept (sp.modVma i f) := by
  obtain ⟨la', lf', hinv, hkept, hall⟩ := h
  refine ⟨la', lf', hinv.modVma (hinv.not_mem_free (hkept hi)) hlink, hkept, fun j hj => ?_⟩
  by_cases hji : j = i
  · subst hji
    rw [Space.modVma_self]
    exact Or.inr hin
  · rw [Space.modVma_of_ne _ _ hji]
    exact hall j hj

/-- A part is split off. -/
theorem splitOff {s : Vm} {e : ℕ} (h : KeepsInside sp₀ la v kept (s.envs e))
    {va len perm : BitVec 32}
    (hin : va.toNat % 4096 = 0 → v.va.toNat ≤ va.toNat ∧
      va.toNat + (roundUp len (BitVec.ofNat 32 pgSize)).toNat ≤ v.stop) :
    Ends (fun _ => True)
      (fun s' => KeepsInside sp₀ la v kept (s'.envs e) ∧ ∀ j ∈ kept,
        (s'.vma e j).body = (s.vma e j).body)
      (vmaSplitOff s e va len .anon perm) := by
  rw [vmaSplitOff, ends_bind, Vm.onSpace, ends_bind]
  refine (h.vmaNew hin).post fun r hr => ?_
  have hself : (s.modSpace e fun _ => r.2).envs e = r.2 := Vm.modSpace_self ..
  refine ⟨?_, fun j hj => ?_⟩
  · change KeepsInside sp₀ la v kept ((s.modSpace e fun _ => r.2).envs e)
    rw [hself]
    exact hr.1
  · change (((s.modSpace e fun _ => r.2).envs e).vmas j).body = _
    rw [hself]
    exact hr.2 j hj

end KeepsInside

/-! ### Splitting -/

section

variable {s : Vm} {e i : ℕ} {la lf : List ℕ} {v : Vma} {va size : BitVec 32}

/-- The parts that a split leaves of an area of whole pages. -/
theorem split_parts_inside (hv : v.Fits) (hstart : v.va.toNat ≤ va.toNat)
    (hinside : va.toNat + size.toNat ≤ v.stop) :
    (v.va.toNat + (roundUp (va - v.va) (BitVec.ofNat 32 pgSize)).toNat ≤ v.stop) ∧
    ((va + size).toNat % 4096 = 0 → v.va.toNat ≤ (va + size).toNat ∧
      (va + size).toNat + (roundUp (v.len - (va + size - v.va)) (BitVec.ofNat 32 pgSize)).toNat ≤
        v.stop) := by
  have hpage := hv.page
  have hstop := hv.proper.stop
  have hlow := hv.low
  have hU : uTop.toNat = 4005560320 := rfl
  have hleft : (va - v.va).toNat = va.toNat - v.va.toNat :=
    BitVec.toNat_sub_of_le (BitVec.le_def.2 hstart)
  rw [Vma.stop] at hinside ⊢
  have hsum : (va + size).toNat = va.toNat + size.toNat := by
    rw [BitVec.toNat_add]
    omega
  have hoff : (va + size - v.va).toNat = va.toNat + size.toNat - v.va.toNat := by
    rw [BitVec.toNat_sub_of_le (BitVec.le_def.2 (by rw [hsum]; omega)), hsum]
  have hright : (v.len - (va + size - v.va)).toNat = v.va.toNat + v.len.toNat -
      (va.toNat + size.toNat) := by
    rw [BitVec.toNat_sub_of_le (BitVec.le_def.2 (by rw [hoff]; omega)), hoff]
    omega
  refine ⟨?_, fun hal => ⟨by rw [hsum]; omega, ?_⟩⟩
  · rw [toNat_roundUp (by rw [hleft]; omega), pagesOf, hleft]
    omega
  · rw [hsum] at hal ⊢
    rw [toNat_roundUp (by rw [hright]; omega), pagesOf, hright]
    omega

/-- The two cases of `vma_split_lookup`, for the area `v` that was found. -/
theorem vmaSplitParts_inside {sp₀ : Space} {vmaRemove : Bool} (hv : v.Fits) (hanon : v.type = .anon)
    (hstart : v.va.toNat ≤ va.toNat) (hinside : va.toNat + size.toNat ≤ v.stop)
    (h : KeepsInside sp₀ la v (if vmaRemove then [] else [i]) (s.envs e))
    (hi : vmaRemove = false → (s.vma e i).va = v.va ∧ (s.vma e i).len = v.len) :
    Ends (fun _ => True) (fun s' => KeepsInside sp₀ la v [] (s'.envs e))
      (vmaSplitParts s e i v va size vmaRemove) := by
  obtain ⟨hleft, hright⟩ := split_parts_inside hv hstart hinside
  have hend : ∀ sp kept, KeepsInside sp₀ la v kept sp → KeepsInside sp₀ la v [] sp := by
    rintro sp kept ⟨la', lf', hinv, -, hall⟩
    exact ⟨la', lf', hinv, List.nil_subset _, hall⟩
  cases vmaRemove with
  | true =>
      have hparts : ∀ s', KeepsInside sp₀ la v [] (s'.envs e) →
          Ends (fun _ => True) (fun s' => KeepsInside sp₀ la v [] (s'.envs e))
          (vmaSplitOff s' e (va + size) (v.len - (va + size - v.va)) .anon v.perm) :=
        fun s' h' => (h'.splitOff hright).post fun _ h => h.1
      simp only [vmaSplitParts, if_true, hanon]
      refine Ends.ite_bind (ends_ite (fun _ => ?_) fun _ => ?_)
      · refine (@KeepsInside.splitOff _ _ _ _ s e h v.va _ _ fun _ => ⟨Nat.le_refl _, hleft⟩).post
          fun s₁ h₁ => ?_
        exact ends_ite (fun _ => hparts s₁ h₁.1) fun _ => h₁.1
      · exact ends_ite (fun _ => hparts s h) fun _ => h
  | false =>
      obtain ⟨hiva, hilen⟩ := hi rfl
      have hfits := hv.proper.stop
      have hstopv : v.stop = v.va.toNat + v.len.toNat := rfl
      have hrest : (v.len - (va - v.va)).toNat = v.stop - va.toNat := by
        have hoff : (va - v.va).toNat = va.toNat - v.va.toNat :=
          BitVec.toNat_sub_of_le (BitVec.le_def.2 hstart)
        rw [BitVec.toNat_sub_of_le (BitVec.le_def.2 (by rw [hoff]; omega)), hoff]
        omega
      have hsum : (va + size).toNat = va.toNat + size.toNat := by
        rw [BitVec.toNat_add]
        omega
      have htail : (v.len - (va + size - v.va)).toNat = v.stop - (va.toNat + size.toNat) := by
        have hoff : (va + size - v.va).toNat = va.toNat + size.toNat - v.va.toNat := by
          rw [BitVec.toNat_sub_of_le (BitVec.le_def.2 (by rw [hsum]; omega)), hsum]
        rw [BitVec.toNat_sub_of_le (BitVec.le_def.2 (by rw [hoff]; omega)), hoff]
        omega
      -- the second case, once the descriptor starts with the range
      have hsecond : ∀ s', KeepsInside sp₀ la v [i] (s'.envs e) → (s'.vma e i).va = va →
          (s'.vma e i).len = v.len - (va - v.va) →
          Ends (fun _ => True) (fun s' => KeepsInside sp₀ la v [] (s'.envs e))
            (if va + size < v.va + v.len then
              vmaSplitOff (s'.modSpace e fun sp => sp.modVma i fun w =>
                { w with len := w.len - (v.len - (va + size - v.va)) }) e
                (va + size) (v.len - (va + size - v.va)) .anon v.perm
            else pure s') := by
        intro s' h' hva hlen
        refine ends_ite (fun _ => ?_) fun _ => hend _ _ h'
        have h₁ : KeepsInside sp₀ la v [i] ((s'.modSpace e fun sp => sp.modVma i fun w =>
            { w with len := w.len - (v.len - (va + size - v.va)) }).envs e) := by
          rw [Vm.modSpace_self]
          refine h'.modVma (fun _ => rfl) (List.mem_singleton.2 rfl) ⟨?_, ?_⟩
          · change v.va.toNat ≤ (s'.vma e i).va.toNat
            rw [hva]
            exact hstart
          · change (s'.vma e i).va.toNat +
              ((s'.vma e i).len - (v.len - (va + size - v.va))).toNat ≤ _
            rw [hva, hlen, BitVec.toNat_sub_of_le (BitVec.le_def.2 (by rw [htail, hrest]; omega)),
              htail, hrest]
            omega
        exact (h₁.splitOff hright).post fun _ h => hend _ _ h.1
      simp only [vmaSplitParts, Bool.false_eq_true, if_false, hanon]
      refine Ends.ite_bind (ends_ite (fun _ => ?_) fun hlt => ?_)
      · have h₁ : KeepsInside sp₀ la v [i] ((s.modSpace e fun sp => sp.modVma i fun w =>
            { w with va := va, len := w.len - (va - v.va) }).envs e) := by
          rw [Vm.modSpace_self]
          refine KeepsInside.modVma h (fun _ => rfl) (List.mem_singleton.2 rfl) ⟨hstart, ?_⟩
          change va.toNat + ((s.vma e i).len - (va - v.va)).toNat ≤ _
          rw [hilen, hrest]
          omega
        refine (@KeepsInside.splitOff _ _ _ _ _ e h₁ v.va _ _ fun _ => ⟨Nat.le_refl _, hleft⟩).post
          fun s₁ hs₁ => ?_
        have hbody := hs₁.2 i (List.mem_singleton.2 rfl)
        have hmod : (s.modSpace e fun sp => sp.modVma i fun w =>
            { w with va := va, len := w.len - (va - v.va) }).vma e i =
            { s.vma e i with va := va, len := (s.vma e i).len - (va - v.va) } := by
          rw [Vm.vma, Vm.modSpace_self, Space.modVma_self]
          rfl
        rw [hmod] at hbody
        refine hsecond s₁ hs₁.1 (congrArg (·.va) hbody) ?_
        have hlen : (s₁.vma e i).len = (s.vma e i).len - (va - v.va) := congrArg (·.len) hbody
        rw [hlen, hilen]
      · have heq : va = v.va := by
          rw [BitVec.lt_def] at hlt
          exact BitVec.eq_of_toNat_eq (by omega)
        refine hsecond s h (hiva.trans heq.symm) ?_
        rw [hilen, heq, BitVec.sub_self, BitVec.sub_zero]

/-- **A split leaves only parts of the area.** -/
theorem vmaSplitLookup_inside (h : Sorted (s.envs e) la lf)
    (hlook : vmaLookup (s.envs e) va = .ok (some i))
    (hinside : va.toNat + size.toNat ≤ (s.vma e i).stop) (vmaRemove : Bool) :
    Ends (fun _ => True) (fun r => KeepsInside (s.envs e) la (s.vma e i) [] (r.2.envs e))
      (vmaSplitLookup s e va size vmaRemove) := by
  obtain ⟨hi, hc⟩ := h.lists.found hlook
  have hfits : (s.vma e i).Fits := h.fits hi
  have hstart := (hfits.covers_iff.1 hc).1
  have hsame : KeepsInside (s.envs e) la (s.vma e i) [] (s.envs e) :=
    ⟨la, lf, h.lists, List.nil_subset _, fun j hj => Or.inl ⟨hj, rfl⟩⟩
  unfold vmaSplitLookup
  rw [hlook]
  change Ends _ _ (if _ then _ else _)
  refine ends_ite (fun _ => True.intro) fun _ => ends_ite (fun _ => hsame) fun _ =>
    ends_ite (fun _ => hsame) fun hanon =>
    ends_ite (fun _ => hsame) fun _ => ?_
  have hanon : (s.vma e i).type = .anon := by
    by_contra hne
    exact hanon hne
  cases vmaRemove with
  | false =>
      rw [if_neg Bool.false_ne_true]
      change Ends _ _ (vmaSplitParts s e i (s.vma e i) va size false >>= _)
      rw [ends_bind]
      refine (vmaSplitParts_inside hfits hanon hstart hinside ?_ fun _ => ⟨rfl, rfl⟩).post
        fun s' h' => h'
      exact ⟨la, lf, h.lists, by simpa using hi, fun j hj => Or.inl ⟨hj, rfl⟩⟩
  | true =>
      obtain ⟨pre, post, rfl⟩ := List.append_of_mem hi
      have hne := nodup_split h.lists.alloc.nodup
      rw [if_pos rfl, h.ordered.remove true, if_pos rfl, ends_bind, ends_bind]
      refine Ends.mono (removePagesFrom_ends e (s.vma e i).va _ 0 s) (fun _ _ => True.intro)
        fun s₁ hs₁ => ?_
      change Ends _ _ (vmaSplitParts (s₁.modSpace e fun sp => vmaUnlink sp (pre.getLastD i) i) e i
        (s.vma e i) va size true >>= _)
      rw [ends_bind]
      refine (@vmaSplitParts_inside _ e i (pre ++ i :: post) (s.vma e i) va size (s.envs e) true
        hfits hanon hstart hinside ?_
        fun hr => absurd hr (by decide)).post fun s' h' => h'
      rw [Vm.modSpace_self]
      refine ⟨_, _, ((h.congr (hs₁ e)).unlinked).lists, List.nil_subset _, fun j hj => Or.inl ?_⟩
      have hji : j ≠ i := by
        rintro rfl
        rcases List.mem_append.1 hj with hj | hj
        · exact hne.1 hj
        · exact hne.2 hj
      refine ⟨?_, ?_⟩
      · simp only [List.mem_append, List.mem_cons] at hj ⊢
        exact hj.imp_right Or.inr
      · have hvma : (s₁.envs e).vmas j = (s.envs e).vmas j := congrFun (congrArg Prod.fst (hs₁ e)) j
        rw [Sorted.unlink_body j hji, hvma]

/-- Every page of a range is one of the area that the range lies in. -/
theorem rangePages_inside (hv : v.Fits) (hstart : v.va.toNat ≤ va.toNat)
    (hinside : va.toNat + size.toNat ≤ v.stop) {q : ℕ} (hle : vpn va ≤ q)
    (hlt : q < vpn va + pageCount size) : ¬ v.Beside q := by
  have hU : uTop.toNat = 4005560320 := rfl
  have hpage := hv.page
  have hlast := hv.page_lt hinside (k := q - vpn va) (by omega)
  have hstop : v.stop = v.va.toNat + v.len.toNat := rfl
  rw [Vma.Beside]
  rw [vpn] at hle hlt hlast
  omega

/-! ### Merging -/

/-- The addresses of an area are addresses of `C`, and lie below `UTOP`. -/
def Vma.CoversOnly (w : Vma) (C : ℕ → Prop) : Prop :=
  w.stop ≤ uTop.toNat ∧ ∀ a, w.va.toNat ≤ a → a < w.stop → C a

/-- **The areas have only addresses of `C`**, which lie below `UTOP`. -/
def Space.CoversOnly (sp : Space) (C : ℕ → Prop) : Prop :=
  ∀ la lf, VmaInv sp la lf → ∀ j ∈ la, (sp.vmas j).CoversOnly C

theorem Vma.CoversOnly.congr {w w' : Vma} {C : ℕ → Prop} (h : w.CoversOnly C)
    (hb : w'.body = w.body) : w'.CoversOnly C := by
  change w'.body.CoversOnly C
  rw [hb]
  exact h

/-- The addresses of the areas of a list. -/
def Space.Covered (sp : Space) (la : List ℕ) (a : ℕ) : Prop :=
  ∃ k ∈ la, (sp.vmas k).va.toNat ≤ a ∧ a < (sp.vmas k).stop

/-- The lists of descriptors are those of the space. -/
theorem Space.CoversOnly.of_list {sp : Space} {la lf : List ℕ} {C : ℕ → Prop}
    (h : VmaInv sp la lf) (hall : ∀ j ∈ la, (sp.vmas j).CoversOnly C) : sp.CoversOnly C := by
  intro la' lf' h' j hj
  obtain rfl := h'.alloc.unique h.alloc
  exact hall j hj

theorem Space.CoversOnly.of_lists {sp sp' : Space} {C : ℕ → Prop} (h : sp.CoversOnly C)
    (heq : sp'.lists = sp.lists) : sp'.CoversOnly C := by
  intro la lf hinv j hj
  have hvmas : sp'.vmas = sp.vmas := congrArg Prod.fst heq
  rw [hvmas]
  exact h la lf (hinv.congr heq.symm) j hj

/-- The areas that a split leaves. -/
theorem KeepsInside.coversOnly {sp₀ sp : Space} (h : Sorted sp₀ la lf) (hi : i ∈ la)
    (hin : KeepsInside sp₀ la (sp₀.vmas i) [] sp) : sp.CoversOnly (sp₀.Covered la) := by
  obtain ⟨la', lf', hinv, -, hall⟩ := hin
  refine Space.CoversOnly.of_list hinv fun j hj => ?_
  have hself : ∀ k ∈ la, (sp₀.vmas k).CoversOnly (sp₀.Covered la) := fun k hk =>
    ⟨(h.fits hk).low, fun a hle hlt => ⟨k, hk, hle, hlt⟩⟩
  rcases hall j hj with ⟨hj, hb⟩ | ⟨hstart, hstop⟩
  · exact (hself j hj).congr hb
  · obtain ⟨hlow, hall⟩ := hself i hi
    exact ⟨Nat.le_trans hstop hlow,
      fun a hle hlt => hall a (Nat.le_trans hstart hle) (Nat.lt_of_lt_of_le hlt hstop)⟩

/-- `vma_merge` of neighbours covers no address that was not covered. -/
theorem vmaMerge_coversOnly {s : Vm} {e old i : ℕ} {la lf : List ℕ} {C : ℕ → Prop}
    (h : VmaInv (s.envs e) la lf) (hside : old ∈ la ∧ i ∈ la ∨ old ∈ lf ∧ i ∈ lf)
    (hjoin : (s.vma e old).mergesWith (s.vma e i) = true) (hC : (s.envs e).CoversOnly C) :
    Ends (fun _ => True) (fun r => (r.2.envs e).CoversOnly C) (vmaMerge s e old i) := by
  have hside' : old ∉ lf ∨ i ∈ lf := hside.imp (fun hs => h.not_mem_free hs.1) fun hs => hs.2
  have h₁ := vmaMerge_lengthen h hside'
  unfold vmaMerge
  dsimp only
  obtain ⟨s₁, hs₁⟩ : ∃ s₁, (s.modSpace e fun sp =>
      sp.modVma old fun v => { v with len := v.len + (sp.vmas i).len }) = s₁ := ⟨_, rfl⟩
  rw [hs₁] at h₁ ⊢
  have hvma : ∀ j, (s₁.envs e).vmas j = if j = old then
      { s.vma e old with len := (s.vma e old).len + (s.vma e i).len } else s.vma e j := by
    intro j
    rw [← hs₁, Vm.modSpace_self]
    split
    · rename_i hj
      rw [hj, Space.modVma_self]
      rfl
    · rename_i hj
      exact Space.modVma_of_ne _ _ hj
  have hall : ∀ j ∈ la, ((s₁.envs e).vmas j).CoversOnly C := by
    intro j hj
    rw [hvma]
    split
    · rename_i hjold
      subst hjold
      -- the descriptor is in use, and so is the one behind it
      have hboth : i ∈ la := hside.elim (fun hs => hs.2) fun hs => absurd hs.1 (h.not_mem_free hj)
      obtain ⟨hlow, hcov⟩ := hC la lf h j hj
      obtain ⟨hlow', hcov'⟩ := hC la lf h i hboth
      have hmeet := (Vma.mergesWith_iff.1 hjoin).1
      have hU : uTop.toNat = 4005560320 := rfl
      have hstop : ∀ k, ((s.envs e).vmas k).stop =
          (s.vma e k).va.toNat + (s.vma e k).len.toNat := fun _ => rfl
      rw [hstop] at hlow hlow' hcov hcov'
      have hnext : (s.vma e i).va.toNat = (s.vma e j).va.toNat + (s.vma e j).len.toNat := by
        rw [← hmeet, BitVec.toNat_add]
        omega
      have hlen : ((s.vma e j).len + (s.vma e i).len).toNat =
          (s.vma e j).len.toNat + (s.vma e i).len.toNat := by
        rw [BitVec.toNat_add]
        omega
      have hend : ({ s.vma e j with len := (s.vma e j).len + (s.vma e i).len } : Vma).stop =
          (s.vma e i).va.toNat + (s.vma e i).len.toNat := by
        change (s.vma e j).va.toNat + ((s.vma e j).len + (s.vma e i).len).toNat = _
        omega
      refine ⟨by rw [hend]; exact hlow', fun a hle hlt => ?_⟩
      rw [hend] at hlt
      have hle : (s.vma e j).va.toNat ≤ a := hle
      rcases Nat.lt_or_ge a (s.vma e i).va.toNat with hfirst | hsecond
      · exact hcov a hle (by omega)
      · exact hcov' a hsecond hlt
    · exact hC la lf h j hj
  refine (vmaRemoveAlloced_state h₁ i false).mono (fun _ _ => True.intro) ?_
  rintro r (⟨-, rfl⟩ | ⟨pre, x, post, s₂, rfl, -, -, hs₂, rfl⟩)
  · exact Space.CoversOnly.of_list h₁ hall
  · obtain rfl := hs₂ rfl
    change Space.CoversOnly ((s₂.modSpace e fun sp => vmaUnlink sp (pre.getLastD x) x).envs e) C
    rw [Vm.modSpace_self]
    have hx := nodup_split h₁.alloc.nodup
    refine Space.CoversOnly.of_list h₁.unlink fun j hj => ?_
    have hmem : j ∈ pre ++ x :: post := by
      simp only [List.mem_append, List.mem_cons] at hj ⊢
      exact hj.imp_right Or.inr
    refine (hall j hmem).congr (Sorted.unlink_body j ?_)
    rintro rfl
    rcases List.mem_append.1 hj with hj | hj
    · exact hx.1 hj
    · exact hx.2 hj

/-- **Merging covers no address that was not covered.** -/
theorem vmaListMerge_coversOnly {s : Vm} {e : ℕ} {C : ℕ → Prop} (h : VmaOk (s.envs e))
    (hC : (s.envs e).CoversOnly C) :
    Ends (fun _ => False) (fun r => VmaOk (r.2.envs e) ∧ (r.2.envs e).CoversOnly C)
      (vmaListMerge s e) :=
  vmaListMerge_rule (P := fun sp => sp.CoversOnly C)
    (fun _ _ _ _ _ hinv hside hjoin hP => vmaMerge_coversOnly hinv hside hjoin hP) h hC

end

/-! ### The property and the condition -/

/-- **Outside the area `v`** no area is created and no page is removed: an address that is covered
after the call was covered before it, and the pages beside `v` keep their translations. -/
structure StaysInside (s s' : Vm) (e : ℕ) (la : List ℕ) (v : Vma) : Prop where
  areas : VmaOk (s'.envs e) ∧ (s'.envs e).CoversOnly ((s.envs e).Covered la)
  pgdir : s'.pgdir e = s.pgdir e
  pages : ∀ d, s.pgdir e = some d → ∀ q, q / 1024 < pdx uTop → v.Beside q → ∀ f b,
    s.mm.translate d q = some (f, b) → s'.mm.translate d q = some (f, b)

namespace RangeCall

/-- The system call. -/
def run (cur : ℕ) (va size : BitVec 32) : RangeCall → Kern (BitVec 32)
  | destroy => Kern.sysVmaDestroy cur va size
  | protect perm => Kern.sysVmaProtect cur va size perm
  | advise attr => Kern.sysVmaAdvise cur va size attr

/-- The call that has found the area `v` takes the page `q` away: `sys_vma_destroy` removes the
pages of the whole area, `sys_vma_advise(MADV_DONTNEED)` those of the range. -/
def Loses (m : Mm) (d : ℕ) (v : Vma) (va size : BitVec 32) (q : ℕ) : RangeCall → Prop
  | destroy => m.Drops d (v.va.toNat / 4096) (v.len.toNat / 4096) q
  | protect perm => m.Displaces d (vpn va) (pageCount size) perm q
  | advise attr => attr = 0 ∧ v.hps = false ∧ m.Drops d (vpn va) (pageCount size) q

/-- The range has no 4 MB page if its permission is changed to one without `PTE_PS`. -/
def Plain (m : Mm) (d : ℕ) (va size : BitVec 32) : RangeCall → Prop
  | protect perm => isHuge perm = false →
      ∀ q ∈ m.walked d (pageCount size) (vpn va), isHuge (m.word d (q / 1024)) = false
  | _ => True

/-- **The condition**: no page beside the area is part of a 4 MB page that the call removes, or
shares its 4 MB with a page of the range that becomes a 4 MB page. -/
def Spares (m : Mm) (d : ℕ) (v : Vma) (va size : BitVec 32) (call : RangeCall) : Prop :=
  call.Plain m d va size ∧
    ∀ q, q / 1024 < pdx uTop → v.Beside q → ¬ call.Loses m d v va size q

end RangeCall

/-! ### The three calls -/

section

variable {s s' : Vm} {e d i : ℕ} {la lf : List ℕ} {va size a : BitVec 32}

/-- A split that comes to its end gives the descriptor. -/
theorem vmaSplitLookup_takes (hlook : vmaLookup (s.envs e) va = .ok (some i))
    (hsplits : (s.vma e i).Splits) (hsize : vmaSizeCheck va size (s.vma e i) = true)
    (vmaRemove : Bool) :
    Ends (fun _ => True) (fun r => r.1 = some i) (vmaSplitLookup s e va size vmaRemove) := by
  obtain ⟨hcons, hhps, hanon⟩ := hsplits
  unfold vmaSplitLookup
  rw [hlook]
  change Ends _ _ (if _ then _ else _)
  refine ends_ite (fun _ => True.intro) fun _ => ends_ite (fun hc => ?_) fun _ =>
    ends_ite (fun hc => absurd hanon hc) fun _ => ends_ite (fun hc => absurd hsize hc) fun _ => ?_
  · exact nomatch hhps.symm.trans hc
  · have hparts : ∀ s₁, Ends (fun _ => True) (fun r => r.1 = some i)
        (vmaSplitParts s₁ e i (s.vma e i) va size vmaRemove >>= fun s₂ => pure (some i, s₂)) := by
      intro s₁
      rw [ends_bind]
      exact Ends.of_forall (fun _ => rfl) _
    cases vmaRemove with
    | false => exact hparts s
    | true =>
        rw [if_pos rfl, ends_bind]
        refine Ends.of_forall ?_ _
        rintro ⟨ok, s₁⟩
        exact hparts s₁

/-- The pages beside the area when pages have been removed. -/
theorem Destroyed.translate_iff {m m' : Mm} {first n q : ℕ} (h : Destroyed m m' d first n)
    (hq : q / 1024 < pdx uTop) (hmapped : m.Mapped d q) :
    m'.translate d q = m.translate d q ↔ ¬ m.Drops d first n q := by
  by_cases hdrop : m.Drops d first n q
  · refine iff_of_false (fun hc => ?_) fun hc => hc hdrop
    refine Mm.mapped_iff.1 hmapped (hc.symm.trans ?_)
    rcases h.dropped q hq hdrop with hnone | hzero
    · rw [Mm.translate, hnone]
    · rw [Mm.translate, hzero]
      rfl
  · exact iff_of_true (Mm.translate_congr (h.kept q hq hdrop)) hdrop

/-- **`sys_vma_destroy`.** -/
theorem destroyVm_inside (h : Sorted (s.envs e) la lf) (hd : s.pgdir e = some d)
    (ht : TlbTables s.mm d) (hlook : vmaLookup (s.envs e) va = .ok (some i))
    (hsplits : (s.vma e i).Splits) (hsize : vmaSizeCheck va size (s.vma e i) = true)
    (hinside : va.toNat + size.toNat ≤ (s.vma e i).stop)
    (hrun : destroyVm s e va size = .ok (a, s')) :
    (VmaOk (s'.envs e) ∧ (s'.envs e).CoversOnly ((s.envs e).Covered la)) ∧ s'.pgdir e = s.pgdir e ∧
      Destroyed s.mm s'.mm d ((s.vma e i).va.toNat / 4096) ((s.vma e i).len.toNat / 4096) := by
  have hi := (h.lists.found hlook).1
  obtain ⟨hzero, hkeeps⟩ : a = 0 ∧ KeepsInside (s.envs e) la (s.vma e i) [] (s'.envs e) := by
    have hrun := hrun
    unfold destroyVm at hrun
    rw [hlook] at hrun
    change (if _ then _ else _) = _ at hrun
    rw [if_neg fun hc => Bool.false_ne_true (hsplits.2.1.symm.trans hc.1)] at hrun
    obtain ⟨⟨r, s₁⟩, hsplit, hend⟩ := bind_eq_ok.1 hrun
    obtain rfl : r = some i := (vmaSplitLookup_takes hlook hsplits hsize true).of_ok hsplit
    obtain ⟨rfl, rfl⟩ := Prod.mk.inj (Except.ok.inj hend)
    exact ⟨rfl, (vmaSplitLookup_inside h hlook hinside true).of_ok hsplit⟩
  subst hzero
  obtain ⟨s₁, hpages, hmm, hpg⟩ := destroyVm_removes h.ordered hlook hrun
  obtain ⟨hpg₁, hdes⟩ := vmaRemovePages_destroyed (h.fits hi) ht hd hpages
  refine ⟨⟨?_, hkeeps.coversOnly h hi⟩, (hpg e).trans (hpg₁ e), ?_⟩
  · obtain ⟨la', lf', hinv, -⟩ := hkeeps
    exact ⟨la', lf', hinv⟩
  · rw [hmm]
    exact hdes

/-- **`sys_vma_protect`.** -/
theorem protectVm_inside {perm : BitVec 32} (h : Sorted (s.envs e) la lf)
    (hlook : vmaLookup (s.envs e) va = .ok (some i)) (hne : (s.vma e i).perm ≠ perm)
    (hsplits : (s.vma e i).Splits) (hsize : vmaSizeCheck va size (s.vma e i) = true)
    (hinside : va.toNat + size.toNat ≤ (s.vma e i).stop)
    (hrun : protectVm s e va size perm = .ok (a, s')) :
    (VmaOk (s'.envs e) ∧ (s'.envs e).CoversOnly ((s.envs e).Covered la)) ∧
      ∃ s₁ s₂, SameMemory s s₁ ∧ changePermFrom e va perm (pageCount size) 0 s₁ = .ok s₂ ∧
        SameMemory s₂ s' := by
  have hi := (h.lists.found hlook).1
  unfold protectVm at hrun
  rw [hlook] at hrun
  change (if _ then _ else _) = _ at hrun
  rw [if_neg hne] at hrun
  obtain ⟨⟨r, vm⟩, hsplit, hend⟩ := bind_eq_ok.1 hrun
  obtain rfl : r = some i := (vmaSplitLookup_takes hlook hsplits hsize false).of_ok hsplit
  obtain ⟨s₂, hchange, hend⟩ := bind_eq_ok.1 hend
  obtain ⟨⟨ok, s₃⟩, hmerge, hend⟩ := bind_eq_ok.1 hend
  obtain rfl : s₃ = s' := (Prod.mk.inj (Except.ok.inj hend)).2
  obtain ⟨-, -, -, honly, ⟨hva, hlen⟩, la', lf', hinv, hmem⟩ := vmaSplitLookup_range h.lists hsplit
  obtain ⟨s₁, honly₁, hloop⟩ := vmaChangePerm_range honly hva hlen hchange
  have hmerged := (vmaListMerge_only s₂ e).of_ok hmerge
  refine ⟨?_, s₁, s₂, honly₁.memory, hloop, hmerged.memory⟩
  -- the permission of the descriptor and the entries are no matter of the addresses
  have hcov := ((vmaSplitLookup_inside h hlook hinside false).of_ok hsplit).coversOnly h hi
  have hmod : ((vm.modSpace e fun sp => sp.modVma i fun v => { v with perm := perm }).envs e
      ).CoversOnly ((s.envs e).Covered la) := by
    refine Space.CoversOnly.of_list (hinv.modSpace hmem fun _ => rfl) fun j hj => ?_
    rw [Vm.modSpace_self]
    by_cases hji : j = i
    · subst hji
      rw [Space.modVma_self]
      exact hcov la' lf' hinv j hj
    · rw [Space.modVma_of_ne _ _ hji]
      exact hcov la' lf' hinv j hj
  have hcov₂ := hmod.of_lists ((changePermFrom_ends e _ perm _ 0 _).of_ok hchange e)
  exact (vmaListMerge_coversOnly ⟨la', lf', (vmaChangePerm_ends hinv hmem perm).of_ok hchange⟩
    hcov₂).of_ok hmerge

/-- **`sys_vma_advise`.** -/
theorem adviseVm_inside {attr : BitVec 32} (h : Sorted (s.envs e) la lf) (hd : s.pgdir e = some d)
    (ht : TlbTables s.mm d) (hlow : LowPages va 0 (pageCount size))
    (hsize : vmaSizeCheck va size (s.vma e i) = true)
    (hrun : adviseVm s e (s.vma e i) va size attr = .ok (a, s')) :
    SameVmas s s' ∧ s'.pgdir e = s.pgdir e ∧
      (attr = 0 ∧ (s.vma e i).hps = false ∧ Destroyed s.mm s'.mm d (vpn va) (pageCount size) ∨
        ¬ (attr = 0 ∧ (s.vma e i).hps = false) ∧ s' = s) := by
  have hsame : ¬ (attr = 0 ∧ (s.vma e i).hps = false) → s' = s →
      SameVmas s s' ∧ s'.pgdir e = s.pgdir e ∧
      (attr = 0 ∧ (s.vma e i).hps = false ∧ Destroyed s.mm s'.mm d (vpn va) (pageCount size) ∨
        ¬ (attr = 0 ∧ (s.vma e i).hps = false) ∧ s' = s) := by
    rintro hno rfl
    exact ⟨SameVmas.refl s', rfl, Or.inr ⟨hno, rfl⟩⟩
  unfold adviseVm at hrun
  rw [if_neg (not_not_intro hsize)] at hrun
  by_cases hattr : attr = 0
  · rw [if_pos hattr] at hrun
    cases hhps : (s.vma e i).hps with
    | true =>
        rw [hhps, if_neg (not_not_intro rfl)] at hrun
        rw [hhps] at hsame
        exact hsame (fun hc => nomatch hc.2) (Prod.mk.inj (Except.ok.inj hrun)).2.symm
    | false =>
        rw [hhps, if_pos Bool.false_ne_true] at hrun
        obtain ⟨s₁, hpages, hend⟩ := bind_eq_ok.1 hrun
        obtain rfl : s₁ = s' := (Prod.mk.inj (Except.ok.inj hend)).2
        obtain ⟨hpg, hdes⟩ := vmaRemovePages_gone hlow ht hd hpages
        exact ⟨(removePagesFrom_ends e va _ 0 s).of_ok hpages, hpg e, Or.inl ⟨hattr, rfl, hdes⟩⟩
  · rw [if_neg hattr] at hrun
    refine hsame (fun hc => hattr hc.1) ?_
    split at hrun
    · obtain ⟨⟨ok, s₁⟩, hpop, hend⟩ := bind_eq_ok.1 hrun
      obtain rfl : s₁ = s' := (Prod.mk.inj (Except.ok.inj hend)).2
      exact (vmaPopulate_same s e va size _ _).of_ok hpop
    · exact (Prod.mk.inj (Except.ok.inj hrun)).2.symm

end

namespace RangeCall

/-- The call on memory. -/
def runVm (s : Vm) (e i : ℕ) (va size : BitVec 32) : RangeCall → Except Crash (BitVec 32 × Vm)
  | destroy => destroyVm s e va size
  | protect perm => protectVm s e va size perm
  | advise attr => adviseVm s e (s.vma e i) va size attr

/-- The call, with the locks left out. -/
theorem run_vm {s s' : KState} {cur i : ℕ} {va size a : BitVec 32} {call : RangeCall}
    (henv : s.held .env = false) (hp : s.held .pagealloc = false)
    (hlook : vmaLookup (s.vm.envs cur) va = .ok (some i))
    (hrun : call.run cur va size s = .ok (a, s')) :
    call.runVm s.vm cur i va size = .ok (a, s'.vm) := by
  have hafter : s.after s.held (call.runVm s.vm cur i va size) = .ok (a, s') := by
    cases call with
    | destroy => exact (Kern.sysVmaDestroy_eq henv hp).symm.trans hrun
    | protect perm => exact (Kern.sysVmaProtect_eq henv hp).symm.trans hrun
    | advise attr => exact (Kern.sysVmaAdvise_eq henv hp hlook).symm.trans hrun
  cases hvm : call.runVm s.vm cur i va size with
  | error c =>
      rw [hvm] at hafter
      exact nomatch hafter
  | ok r =>
      rw [hvm] at hafter
      obtain ⟨rfl, rfl⟩ := Prod.mk.inj (Except.ok.inj hafter)
      rfl

/-- **A call whose range lies in the area** leaves everything outside it alone if the condition
holds, and only then where the range has no 4 MB page whose permission becomes one without
`PTE_PS`. -/
theorem inside_iff {s s' : Vm} {e d i : ℕ} {la lf : List ℕ} {va size a : BitVec 32}
    {call : RangeCall} (h : Sorted (s.envs e) la lf) (hd : s.pgdir e = some d)
    (ht : TlbTables s.mm d) (hlook : vmaLookup (s.envs e) va = .ok (some i))
    (hcheck : call.Checks (s.vma e i)) (hsize : vmaSizeCheck va size (s.vma e i) = true)
    (hinside : va.toNat + size.toNat ≤ (s.vma e i).stop) (hplain : call.Plain s.mm d va size)
    (hrun : call.runVm s e i va size = .ok (a, s')) :
    StaysInside s s' e la (s.vma e i) ↔ call.Spares s.mm d (s.vma e i) va size := by
  obtain ⟨hi, hc⟩ := h.lists.found hlook
  have hfits : (s.vma e i).Fits := h.fits hi
  have hlow := hfits.lowPages hinside
  have hpages : ∀ q, vpn va ≤ q → q < vpn va + pageCount size → ¬ (s.vma e i).Beside q :=
    fun q hle hlt => rangePages_inside hfits (hfits.covers_iff.1 hc).1 hinside hle hlt
  have hold : (s.envs e).CoversOnly ((s.envs e).Covered la) :=
    Space.CoversOnly.of_list h.lists fun j hj => ⟨(h.fits hj).low, fun x hle hlt =>
      ⟨j, hj, hle, hlt⟩⟩
  -- the three calls keep the areas, and tell which pages keep their translations
  obtain ⟨hareas, hpg, htrans⟩ : (VmaOk (s'.envs e) ∧
      (s'.envs e).CoversOnly ((s.envs e).Covered la)) ∧ s'.pgdir e = s.pgdir e ∧
      ∀ q, q / 1024 < pdx uTop → (s.vma e i).Beside q → s.mm.Mapped d q →
        (s'.mm.translate d q = s.mm.translate d q ↔ ¬ call.Loses s.mm d (s.vma e i) va size q) := by
    cases call with
    | destroy =>
        obtain ⟨hareas, hpg, hdes⟩ := destroyVm_inside h hd ht hlook hcheck hsize hinside hrun
        exact ⟨hareas, hpg, fun q hq _ hm => hdes.translate_iff hq hm⟩
    | protect perm =>
        obtain ⟨hareas, s₁, s₂, ⟨hmm₁, hpg₁⟩, hloop, hmm₂, hpg₂⟩ :=
          protectVm_inside h hlook hcheck.1 hcheck.2 hsize hinside hrun
        rw [← hmm₁] at ht hplain
        obtain ⟨hpg, hkept⟩ := changePerm_beside ht ((hpg₁ e).trans hd) hlow hloop hplain
        refine ⟨hareas, ((hpg₂ e).trans (hpg e)).trans (hpg₁ e), fun q hq hout hm => ?_⟩
        rw [← hmm₁] at hm
        rw [hmm₂, RangeCall.Loses, ← hmm₁]
        refine hkept q hq (fun hmem => ?_) hm
        obtain ⟨hle, hlt, -⟩ := Mm.mem_walked.1 hmem
        exact hpages q hle hlt hout
    | advise attr =>
        obtain ⟨hsame, hpg, hcase⟩ := adviseVm_inside h hd ht hlow hsize hrun
        refine ⟨⟨⟨la, lf, h.lists.congr (hsame e)⟩, hold.of_lists (hsame e)⟩, hpg,
          fun q hq _ hm => ?_⟩
        rcases hcase with ⟨hattr, hhps, hdes⟩ | ⟨hno, rfl⟩
        · rw [hdes.translate_iff hq hm, RangeCall.Loses, and_iff_right hattr, and_iff_right hhps]
        · exact iff_of_true rfl fun hc => hno ⟨hc.1, hc.2.1⟩
  constructor
  · intro hstays
    refine ⟨hplain, fun q hq hout hloses => ?_⟩
    have hm : s.mm.Mapped d q := by
      cases call with
      | destroy => exact Mm.Drops.mapped hloses
      | protect perm => exact hloses.2.1
      | advise attr => exact Mm.Drops.mapped hloses.2.2
    obtain ⟨⟨f, b⟩, hf⟩ := Option.ne_none_iff_exists'.1 (Mm.mapped_iff.1 hm)
    exact (htrans q hq hout hm).1 ((hstays.pages d hd q hq hout f b hf).trans hf.symm) hloses
  · intro hspares
    refine ⟨hareas, hpg, fun d' hd' q hq hout f b hf => ?_⟩
    obtain rfl : d = d' := Option.some.inj (hd.symm.trans hd')
    have hm : s.mm.Mapped d q := Mm.mapped_iff.2 (by rw [hf]; exact fun hc => nomatch hc)
    rw [(htrans q hq hout hm).2 (hspares.2 q hq hout), hf]

end RangeCall

/-- Two areas of one page each, next to each other. -/
def twoAreas : Vm := .ofTable presentPtes [userArea 0x1000 0x1000, userArea 0x2000 0x1000]

theorem twoAreas_sorted : ∃ lf, Sorted (twoAreas.envs 0) [0, 1] lf :=
  ⟨_, @ofAreas_sorted [userArea 0x1000 0x1000, userArea 0x2000 0x1000] (by decide) (by decide)
    (some 1) 8⟩

theorem twoAreas_leaf {q : ℕ} (hq : q < 1024) :
    twoAreas.mm.leaf 1 q = some (presentPtes q, false) :=
  ofTable_leaf hq

end Jos
