/-
**What `sys_vma_destroy` unmaps.**

`sys_vma_destroy` gives up a range of one area. It removes the pages of the whole area, not those of
the range, and `vma_remove_pages` stops at the first page that has no page table and passes over
pages that have been swapped out. So pages of the range can stay, and pages outside the range can
go.

Main definitions:

* `Jos.Mm.Reached`, `Jos.Mm.Drops` — the pages that the loop comes to, and those that lose their
  entry;
* `Jos.Unmapped` — no entry of the range is present or holds a slot;
* `Jos.RestKept` — the pages outside the range are as before.

Main results:

* `Jos.RemovedAll.leaf_eq` — the page tables after the removal;
* `Jos.destroyVm_removes` — what a successful call has removed;
* `Jos.destroy_unmaps_iff` — **when a range is unmapped**;
* `Jos.destroy_keeps_rest_iff` — **when the rest of the area is kept**.
-/

import JosKernel.AreaSplit
import JosKernel.ForkCopy
import JosKernel.SyscallMemory
import JosKernel.Tlb

set_option relaxedAutoImplicit false
set_option autoImplicit false

namespace Jos

open LinkedList Outcome

/-! ### The pages that the loop comes to -/

/-- The loop goes on behind the page `q`: there is an entry, and the next page is not part of a 4 MB
page that `q` was part of. -/
def Mm.Passes (m : Mm) (d q : ℕ) : Prop :=
  m.leaf d q ≠ none ∧ (isHuge (m.word d (q / 1024)) = true → (q + 1) / 1024 ≠ q / 1024)

/-- **The loop that starts at `first` comes to the page `q`.** -/
def Mm.Reached (m : Mm) (d first q : ℕ) : Prop := ∀ p, first ≤ p → p < q → m.Passes d p

/-- The page `q` has a present entry. -/
def Mm.Mapped (m : Mm) (d q : ℕ) : Prop := ∃ w b, m.leaf d q = some (w, b) ∧ isPresent w = true

/-- **The page `q` loses its entry** when the `n` pages at `first` are removed: it is one that the
loop comes to, or part of the same 4 MB page as one. -/
def Mm.Drops (m : Mm) (d first n q : ℕ) : Prop :=
  ∃ p, first ≤ p ∧ p < first + n ∧ m.Reached d first p ∧ m.Mapped d p ∧
    (p = q ∨ isHuge (m.word d (q / 1024)) = true ∧ p / 1024 = q / 1024)

theorem Mm.mapped_of_huge {m : Mm} {d q : ℕ} {w : BitVec 32} (h : m.leaf d q = some (w, true)) :
    m.Mapped d q := by
  obtain ⟨hP, hH, hw⟩ := Mm.leaf_eq_some h
  refine ⟨w, true, h, ?_⟩
  rw [hw, Mm.leafPtr_huge hH]
  exact hP

/-- A page that loses its entry had one. -/
theorem Mm.Drops.mapped {m : Mm} {d first n q : ℕ} (h : m.Drops d first n q) : m.Mapped d q := by
  obtain ⟨p, -, -, -, ⟨w, b, hw, hPw⟩, rfl | ⟨hH, hpq⟩⟩ := h
  · exact ⟨w, b, hw, hPw⟩
  · have hP := (Mm.leaf_eq_some hw).1
    rw [hpq] at hP
    refine Mm.mapped_of_huge (w := m.word d (q / 1024)) ?_
    rw [Mm.leaf, if_pos hP, if_pos hH]

/-- The first of the pages from `a` to `b`, and the others. -/
theorem forall_page_succ {P : ℕ → Prop} {a b : ℕ} (hab : a < b) :
    (∀ p, a ≤ p → p < b → P p) ↔ P a ∧ ∀ p, a + 1 ≤ p → p < b → P p := by
  constructor
  · intro h
    exact ⟨h a (Nat.le_refl _) hab, fun p hp hpq => h p (by omega) hpq⟩
  · rintro ⟨hfirst, h⟩ p hp hpq
    rcases Nat.eq_or_lt_of_le hp with rfl | hlt
    · exact hfirst
    · exact h p hlt hpq

theorem Mm.reached_succ {m : Mm} {d first q : ℕ} (hq : first < q) :
    m.Reached d first q ↔ m.Passes d first ∧ m.Reached d (first + 1) q :=
  forall_page_succ hq

theorem Mm.reached_self (m : Mm) (d first : ℕ) : m.Reached d first first :=
  fun _ hp hpq => absurd hp (by omega)

/-- **The pages that `vma_remove_pages` removes.** -/
theorem Mm.mem_removed {m : Mm} {d : ℕ} : ∀ {n first q : ℕ},
    q ∈ m.removed d n first ↔ first ≤ q ∧ q < first + n ∧ m.Reached d first q ∧ m.Mapped d q := by
  intro n
  induction n with
  | zero =>
      intro first q
      rw [Mm.removed]
      refine ⟨fun h => absurd h List.not_mem_nil, fun h => ?_⟩
      omega
  | succ n ih =>
      intro first q
      -- the pages behind the first one, if the loop goes on
      have hbehind : q ≠ first →
          (first ≤ q ∧ q < first + (n + 1) ∧ m.Reached d first q ∧ m.Mapped d q ↔
          m.Passes d first ∧ q ∈ m.removed d n (first + 1)) := by
        intro hne
        rw [ih]
        constructor
        · rintro ⟨hle, hlt, hr, hm⟩
          obtain ⟨hp, hr⟩ := (Mm.reached_succ (by omega)).1 hr
          exact ⟨hp, by omega, by omega, hr, hm⟩
        · rintro ⟨hp, hle, hlt, hr, hm⟩
          exact ⟨by omega, by omega, (Mm.reached_succ (by omega)).2 ⟨hp, hr⟩, hm⟩
      have hself : m.Mapped d first → first ≤ first ∧ first < first + (n + 1) ∧
          m.Reached d first first ∧ m.Mapped d first :=
        fun hm => ⟨Nat.le_refl _, by omega, m.reached_self d first, hm⟩
      have hlater : first ∉ m.removed d n (first + 1) := fun hmem => by
        have := (ih.1 hmem).1
        omega
      cases hleaf : m.leaf d first with
      | none =>
          rw [Mm.removed, hleaf]
          refine ⟨fun h => absurd h List.not_mem_nil, fun h => ?_⟩
          rcases eq_or_ne q first with rfl | hne
          · obtain ⟨w, b, hw, -⟩ := h.2.2.2
            rw [hleaf] at hw
            cases hw
          · exact absurd hleaf ((hbehind hne).1 h).1.1
      | some r =>
          obtain ⟨w, b⟩ := r
          obtain ⟨-, hH, -⟩ := Mm.leaf_eq_some hleaf
          cases b with
          | true =>
              rw [Mm.removed, hleaf]
              dsimp only
              rw [List.mem_cons]
              rcases eq_or_ne q first with rfl | hne
              · exact ⟨fun _ => hself (Mm.mapped_of_huge hleaf), fun _ => Or.inl rfl⟩
              · rw [or_iff_right hne, hbehind hne]
                by_cases hgroup : (first + 1) / 1024 = first / 1024
                · rw [if_pos hgroup]
                  exact ⟨fun h => absurd h List.not_mem_nil, fun h => absurd hgroup (h.1.2 hH)⟩
                · rw [if_neg hgroup]
                  refine (and_iff_right ⟨?_, fun _ => hgroup⟩).symm
                  rw [hleaf]
                  exact fun hc => by cases hc
          | false =>
              have hpass : m.Passes d first := by
                refine ⟨by rw [hleaf]; exact fun hc => (by cases hc), fun hc => ?_⟩
                rw [hH] at hc
                cases hc
              rw [Mm.removed, hleaf]
              dsimp only
              rw [List.mem_append]
              rcases eq_or_ne q first with rfl | hne
              · rw [or_iff_left hlater]
                constructor
                · intro hmem
                  split at hmem
                  · exact hself ⟨w, false, hleaf, by assumption⟩
                  · exact absurd hmem List.not_mem_nil
                · rintro ⟨-, -, -, w', b', hw', hP⟩
                  rw [hleaf] at hw'
                  obtain ⟨rfl, rfl⟩ := Prod.mk.inj (Option.some.inj hw')
                  rw [if_pos hP]
                  exact List.mem_singleton.2 rfl
              · rw [hbehind hne, and_iff_right hpass]
                refine or_iff_right fun hmem => ?_
                split at hmem
                · exact hne (List.mem_singleton.1 hmem)
                · exact absurd hmem List.not_mem_nil

/-! ### The page tables after the removal -/

/-- The pages of a list, and the rest of the 4 MB pages that they are part of. -/
def Mm.dropsOf (m : Mm) (d : ℕ) (qs : List ℕ) (q : ℕ) : Prop :=
  ∃ p ∈ qs, p = q ∨ isHuge (m.word d (q / 1024)) = true ∧ p / 1024 = q / 1024

theorem Mm.drops_iff {m : Mm} {d first n q : ℕ} :
    m.Drops d first n q ↔ m.dropsOf d (m.removed d n first) q := by
  unfold Mm.Drops Mm.dropsOf
  refine exists_congr fun p => ?_
  rw [Mm.mem_removed, and_assoc, and_assoc, and_assoc]

namespace RemovedAll

variable {c₀ c : Core} {d q : ℕ} {qs : List ℕ}

/-- **A page that loses its entry** has an empty one, or no page table. -/
theorem leaf_dropped (h : RemovedAll c₀ c d qs) (ht : TlbTables c₀.vm.mm d) (hq : q < 2 ^ 20)
    (hdrop : c₀.vm.mm.dropsOf d qs q) :
    c.vm.mm.leaf d q = none ∨ c.vm.mm.leaf d q = some (0, false) := by
  obtain ⟨p, hp, hpq⟩ := hdrop
  cases hH : isHuge (c₀.vm.mm.word d (q / 1024)) with
  | true =>
      have hsame : p / 1024 = q / 1024 := by
        rcases hpq with rfl | ⟨-, hsame⟩
        · rfl
        · exact hsame
      have hzero : c.vm.mm.word d (q / 1024) = 0 := by
        rw [h.words.word_dir, Mm.zeroAll, if_pos]
        · rfl
        · refine List.mem_map.2 ⟨p, hp, ?_⟩
          rw [Mm.leafPtr_huge (by rw [hsame]; exact hH), hsame]
      refine Or.inl (Mm.leaf_eq_none.2 ?_)
      rw [hzero]
      decide
  | false =>
      have hpq : p = q := hpq.resolve_right fun hc => by
        rw [hH] at hc
        cases hc.1
      subst hpq
      obtain ⟨-, hP⟩ := h.low p hp
      have hleaf : c₀.vm.mm.leaf d p =
          some (c₀.vm.mm.word (pgnum (c₀.vm.mm.word d (p / 1024))) (p % 1024), false) := by
        rw [Mm.leaf, if_pos hP, if_neg (by rw [hH]; exact Bool.false_ne_true)]
      refine Or.inr ?_
      rw [h.words.leaf_small hq (h.zeroAll_dir ht fun hc => ?_) hleaf, Mm.zeroAll,
        if_pos (List.mem_map_of_mem hp)]
      · rfl
      · rw [hH] at hc
        cases hc.1

/-- **The other pages** are found as before. -/
theorem leaf_kept (h : RemovedAll c₀ c d qs) (ht : TlbTables c₀.vm.mm d) (hq : q / 1024 < pdx uTop)
    (hkeep : ¬ c₀.vm.mm.dropsOf d qs q) : c.vm.mm.leaf d q = c₀.vm.mm.leaf d q := by
  refine (h.leaf_rest ht hq (fun hmem => hkeep ⟨q, hmem, Or.inl rfl⟩) fun hH hmem => ?_).1
  obtain ⟨p, hp, hpq⟩ := List.mem_map.1 hmem
  exact hkeep ⟨p, hp, Or.inr ⟨hH, hpq⟩⟩

end RemovedAll

/-! ### The bytes of the other frames -/

/-- A frame that a removal does not write: nothing is marked for poisoning, and it is none of those
that a walk reads. -/
structure Mm.Aside (m : Mm) (d f : ℕ) : Prop where
  unmarked : ∀ g, (m.pages g).has poisonAfterFree = false
  aside : ¬ m.WalkFrame d f

/-- **`page_remove`** leaves such a frame alone. -/
theorem pageRemove_aside {s : Vm} {d f : ℕ} {va : BitVec 32} (h : s.mm.Aside d f) :
    Ends (fun _ => True) (fun s' => s'.envs = s.envs ∧ s'.mm.Aside d f ∧ s'.mm.mem f = s.mm.mem f)
      (pageRemove s (some d) va) := by
  refine (pageRemove_cleared fun g _ => h.unmarked g).post ?_
  rintro s' ⟨henvs, ⟨-, rfl⟩ | ⟨hP, s₁, hkeep, hmm⟩⟩
  · exact ⟨rfl, h, rfl⟩
  · refine ⟨henvs, ⟨fun g => ?_, ?_⟩, ?_⟩
    · rw [hmm]
      exact (hkeep.mem g (h.unmarked g)).1
    · -- the entries of the directory are those from before, or 0
      have hword : ∀ i, s'.mm.word d i = s.mm.word d i ∨ s'.mm.word d i = 0 := by
        intro i
        have hset : s'.mm.word d i = _ :=
          (congrArg (fun m : Mm => m.word d i) hmm).trans (Vm.word_setPte ..)
        rw [Mm.word_of_mem (hkeep.mem d (h.unmarked d)).2 i] at hset
        rw [hset]
        split
        · exact Or.inr rfl
        · exact Or.inl rfl
      rintro (rfl | ⟨i, hi, htab, rfl⟩)
      · exact h.aside (Or.inl rfl)
      · rcases hword i with hw | hw
        · rw [hw] at h
          refine h.aside (Or.inr ⟨i, hi, ?_, rfl⟩)
          rw [Mm.HasTable, ← hw]
          exact htab
        · have hP' := htab.1
          rw [hw] at hP'
          exact absurd hP' (by decide)
    · have hne : f ≠ (s.mm.leafPtr d (vpn va)).frame := by
        rintro rfl
        refine h.aside ?_
        cases hH : isHuge (s.mm.word d (vpn va / 1024)) with
        | true =>
            rw [Mm.leafPtr_huge hH]
            exact Or.inl rfl
        | false =>
            rw [Mm.leafPtr_small hH]
            have hva := va.isLt
            exact Or.inr ⟨vpn va / 1024, by rw [vpn]; omega, ⟨hP, hH⟩, rfl⟩
      rw [hmm]
      refine (Function.update_of_ne hne ..).trans ?_
      exact (hkeep.mem f (h.unmarked f)).2

/-- **`vma_remove_pages`** leaves such a frame alone. -/
theorem removePagesFrom_aside {e d f : ℕ} {va : BitVec 32} :
    ∀ (n i : ℕ) (s : Vm), s.pgdir e = some d → s.mm.Aside d f →
    Ends (fun _ => True) (fun s' => s'.mm.mem f = s.mm.mem f) (removePagesFrom e va n i s) := by
  intro n
  induction n with
  | zero => exact fun _ _ _ _ => rfl
  | succ n ih =>
      intro i s hd h
      rw [removePagesFrom, hd, ends_bind]
      refine Ends.post (pgdirFind_leaf s d (pageAt va i)) fun pte _ => ?_
      cases pte with
      | none => exact rfl
      | some pte =>
          refine ends_ite (fun _ => ?_) fun _ => ih (i + 1) s hd h
          rw [ends_bind]
          refine (pageRemove_aside h).post fun s₁ hs₁ => ?_
          obtain ⟨henvs, haside, hmem⟩ := hs₁
          unfold dropPages
          rw [ends_bind]
          refine ends_ite (fun _ => True.intro) fun _ => ?_
          have hd₁ : s₁.pgdir e = some d := by
            rw [Vm.pgdir, henvs]
            exact hd
          generalize hs₂ : s₁.modSpace e _ = s₂
          have hmm : s₂.mm = s₁.mm := by
            rw [← hs₂]
            rfl
          have hd₂ : s₂.pgdir e = some d := by
            rw [← hs₂]
            refine Eq.trans (pgdir_modSpace s₁ e ?_ e) hd₁
            exact fun _ => rfl
          rw [ends_pure]
          refine (ih (i + 1) s₂ hd₂ (by rw [hmm]; exact haside)).post fun s' hs' => ?_
          rw [hs', hmm, hmem]

/-! ### What the call does to the page tables -/

/-- The same page tables: the areas may have changed. -/
def SameMemory (s s' : Vm) : Prop := s'.mm = s.mm ∧ ∀ e, s'.pgdir e = s.pgdir e

theorem SameMemory.trans {s s' s'' : Vm} (h : SameMemory s s') (h' : SameMemory s' s'') :
    SameMemory s s'' :=
  ⟨h'.1.trans h.1, fun e => (h'.2 e).trans (h.2 e)⟩

theorem AreasOnly.modSpace (s : Vm) (e : ℕ) {f : Space → Space}
    (hf : (f (s.envs e)).pgdir = (s.envs e).pgdir ∧
      (f (s.envs e)).allocPages = (s.envs e).allocPages) :
    AreasOnly s (s.modSpace e f) e := by
  refine ⟨?_, ?_, ?_⟩
  · rw [Vm.modSpace_self]
    rfl
  · rw [Vm.modSpace_self]
    exact hf.1
  · rw [Vm.modSpace_self]
    exact hf.2

/-- Where only the areas change the page tables are the same. -/
theorem AreasOnly.memory {s s' : Vm} {e : ℕ} (h : AreasOnly s s' e) : SameMemory s s' := by
  refine ⟨by rw [h.same]; rfl, fun e' => ?_⟩
  by_cases he : e' = e
  · rw [he]
    exact h.pgdir
  · rw [h.same]
    exact congrArg Space.pgdir (Function.update_of_ne he _ s.envs)

/-- **`vma_new`** does not touch the directory. -/
theorem vmaNew_keeps (sp : Space) (va len : BitVec 32) (type : VmaType)
    (src filesize cpyDst perm : BitVec 32) :
    Ends (fun _ => True) (fun r => r.2.pgdir = sp.pgdir ∧ r.2.allocPages = sp.allocPages)
      (vmaNew sp va len type src filesize cpyDst perm) := by
  unfold vmaNew
  dsimp only
  refine ends_ite (fun _ => ⟨rfl, rfl⟩) fun _ => ends_ite (fun _ => ⟨rfl, rfl⟩) fun _ => ?_
  unfold vmaRemoveHead
  cases sp.freeVmaList with
  | none => exact True.intro
  | some el =>
      refine ends_ite (fun _ => True.intro) fun _ => ?_
      rw [ends_bind]
      exact (vmaInsert_body _ el).post fun sp' hsp' => hsp'.2

theorem vmaSplitOff_only (s : Vm) (e : ℕ) (va len : BitVec 32) (type : VmaType) (perm : BitVec 32) :
    Ends (fun _ => True) (fun s' => AreasOnly s s' e) (vmaSplitOff s e va len type perm) := by
  rw [vmaSplitOff, ends_bind, Vm.onSpace, ends_bind]
  exact (vmaNew_keeps (s.envs e) va len type 0 0 0 perm).post fun r hr => AreasOnly.modSpace s e hr

theorem vmaSplitParts_only (s : Vm) (e i : ℕ) (v : Vma) (va size : BitVec 32) (vmaRemove : Bool) :
    Ends (fun _ => True) (fun s' => AreasOnly s s' e)
      (vmaSplitParts s e i v va size vmaRemove) := by
  have hmod : ∀ (s : Vm) (g : Vma → Vma),
      AreasOnly s (if vmaRemove then s else s.modSpace e fun sp => sp.modVma i g) e := by
    intro s g
    split
    · exact AreasOnly.refl s e
    · exact AreasOnly.modVma s e i g
  have hright : ∀ s₁, AreasOnly s s₁ e → Ends (fun _ => True) (fun s' => AreasOnly s s' e)
      (if va + size < v.va + v.len then
        vmaSplitOff (if vmaRemove then s₁ else s₁.modSpace e fun sp => sp.modVma i fun w =>
          { w with len := w.len - (v.len - (va + size - v.va)) }) e (va + size) (v.len -
            (va + size - v.va)) v.type v.perm
      else pure s₁) := by
    intro s₁ h₁
    refine ends_ite (fun _ => ?_) fun _ => h₁
    exact (vmaSplitOff_only _ e _ _ _ _).post fun s₂ h₂ => (h₁.trans (hmod s₁ _)).trans h₂
  rw [vmaSplitParts]
  refine Ends.ite_bind (ends_ite (fun _ => ?_) fun _ => hright s (AreasOnly.refl s e))
  exact (vmaSplitOff_only _ e _ _ _ _).post fun s₁ h₁ => hright s₁ ((hmod s _).trans h₁)

/-- **What a successful call has removed**: the pages of the whole area. -/
theorem destroyVm_removes {s s' : Vm} {e i : ℕ} {la lf : List ℕ} {va size : BitVec 32}
    (h : Ordered (s.envs e) la lf) (hlook : vmaLookup (s.envs e) va = .ok (some i))
    (hrun : destroyVm s e va size = .ok (0, s')) :
    ∃ s₁, vmaRemovePages s e (s.vma e i).va (s.vma e i).len = .ok s₁ ∧ SameMemory s₁ s' := by
  obtain ⟨pre, post, rfl⟩ := List.append_of_mem (h.lists.found hlook).1
  have hends : Ends (fun _ => True)
      (fun r => r.1 = 0 → ∃ s₁, vmaRemovePages s e (s.vma e i).va (s.vma e i).len = .ok s₁ ∧
      SameMemory s₁ r.2) (destroyVm s e va size) := by
    have hno : ∀ s₂ : Vm, (-1 : BitVec 32) = 0 →
        ∃ s₁, vmaRemovePages s e (s.vma e i).va (s.vma e i).len = .ok s₁ ∧
        SameMemory s₁ s₂ := fun _ hc => absurd hc (by decide)
    unfold destroyVm vmaSplitLookup
    rw [hlook]
    change Ends _ _ (if _ then _ else _)
    refine ends_ite (fun _ => hno s) fun _ => ?_
    rw [ends_bind]
    change Ends _ _ (if _ then _ else _)
    refine ends_ite (fun _ => True.intro) fun _ => ends_ite (fun _ => hno s) fun _ =>
      ends_ite (fun _ => hno s) fun _ =>
      ends_ite (fun _ => hno s) fun _ => ?_
    rw [if_pos rfl, h.remove true, if_pos rfl]
    cases hpages : vmaRemovePages s e (s.vma e i).va (s.vma e i).len with
    | error c => exact True.intro
    | ok s₁ =>
        change Ends _ _ (vmaSplitParts (s₁.modSpace e fun sp => vmaUnlink sp (pre.getLastD i) i) e i
          (s.vma e i) va size true >>= _)
        rw [ends_bind]
        refine (vmaSplitParts_only _ e i (s.vma e i) va size true).post fun s₂ h₂ _ => ⟨s₁, rfl, ?_⟩
        have hunlink := @AreasOnly.modSpace s₁ e (fun sp => vmaUnlink sp (pre.getLastD i) i)
          (vmaUnlink_keeps _ _ i)
        exact (hunlink.trans h₂).memory
  rw [hrun] at hends
  exact hends rfl

/-- **The memory after the `n` pages at `first` have been removed.** -/
structure Destroyed (m m' : Mm) (d first n : ℕ) : Prop where
  dropped : ∀ q, q / 1024 < pdx uTop → m.Drops d first n q → m'.leaf d q = none ∨
    m'.leaf d q = some (0, false)
  kept : ∀ q, q / 1024 < pdx uTop → ¬ m.Drops d first n q → m'.leaf d q = m.leaf d q
  aside : ∀ f, m.Aside d f → m'.mem f = m.mem f

/-- **`vma_remove_pages`.** -/
theorem vmaRemovePages_gone {s s₁ : Vm} {e d : ℕ} {va size : BitVec 32}
    (hlow : LowPages va 0 (pageCount size)) (ht : TlbTables s.mm d) (hd : s.pgdir e = some d)
    (hrun : vmaRemovePages s e va size = .ok s₁) :
    (∀ e', s₁.pgdir e' = s.pgdir e') ∧ Destroyed s.mm s₁.mm d (vpn va) (pageCount size) := by
  rw [vmaRemovePages] at hrun
  -- the same run on a CPU whose TLB is empty
  obtain ⟨c₀, hc₀⟩ : ∃ c₀ : Core, c₀ = ⟨s, some e, fun _ => none, fun _ => none⟩ := ⟨_, rfl⟩
  have hvm : c₀.vm = s := by rw [hc₀]
  have herase := removePagesOn_vm e va (pageCount size) 0 c₀
  rw [hvm, hrun] at herase
  obtain ⟨c, hc, hcs⟩ := herase.of_ok
  have ht₀ : TlbTables c₀.vm.mm d := by
    rw [hvm]
    exact ht
  have hend := @removePagesOn_removed c₀ e d ht₀ (by rw [hc₀]) (by rw [hvm]; exact hd) va
    (pageCount size) 0 c₀ []
    (RemovedAll.start ht₀) hlow Mm.Behind.nil
  have hrem := hend.of_ok hc
  rw [List.nil_append, Nat.add_zero] at hrem
  rw [← hcs, ← hvm]
  refine ⟨hrem.same.pgdir, fun q hq hdrop => ?_, fun q hq hdrop => ?_, fun f hf => ?_⟩
  · exact hrem.leaf_dropped ht₀ (PtInv.lt_pow_of_low hq) (Mm.drops_iff.1 hdrop)
  · exact hrem.leaf_kept ht₀ hq fun hc => hdrop (Mm.drops_iff.2 hc)
  · rw [hvm] at hf ⊢
    rw [hcs]
    exact (removePagesFrom_aside _ 0 s hd hf).of_ok hrun

/-- **`vma_remove_pages`** of a whole area. -/
theorem vmaRemovePages_destroyed {s s₁ : Vm} {e d : ℕ} {v : Vma} (hv : v.Fits)
    (ht : TlbTables s.mm d) (hd : s.pgdir e = some d)
    (hrun : vmaRemovePages s e v.va v.len = .ok s₁) :
    (∀ e', s₁.pgdir e' = s.pgdir e') ∧ Destroyed s.mm s₁.mm d (v.va.toNat / 4096)
    (v.len.toNat / 4096) := by
  have hU : uTop.toNat = 4005560320 := rfl
  have hpage := hv.page
  have hlow := hv.low
  have hcount : pageCount v.len = v.len.toNat / 4096 := by
    have hp : pgSize = 4096 := rfl
    rw [pageCount, toNat_roundUp (by omega), pagesOf, hp]
    omega
  have hgone := vmaRemovePages_gone (LowPages.of_le (by rw [hcount]; omega)) ht hd hrun
  rwa [hcount] at hgone

/-! ### The properties and their conditions -/

/-- **No entry of the range is present or holds a slot.** -/
def Unmapped (s : Vm) (e : ℕ) (va size : BitVec 32) : Prop :=
  ∀ d, s.pgdir e = some d → ∀ q, va.toNat / 4096 ≤ q → q < (va.toNat + size.toNat) / 4096 →
    ∀ w b, s.mm.leaf d q = some (w, b) → isPresent w = false ∧ isSwapped w = false

/-- **The pages outside the range are as before**: they have the same entries, and their frames hold
the same bytes. -/
def RestKept (s s' : Vm) (e : ℕ) (va size : BitVec 32) : Prop :=
  s'.pgdir e = s.pgdir e ∧ ∀ d, s.pgdir e = some d → ∀ q, q / 1024 < pdx uTop →
    (q < va.toNat / 4096 ∨ (va.toNat + size.toNat) / 4096 ≤ q) →
    s'.mm.leaf d q = s.mm.leaf d q ∧ ∀ f b, s.mm.translate d q = some (f, b) →
    s'.mm.mem f = s.mm.mem f

/-- A call on a range of whole pages that lies in the area `i`. -/
structure RangeIn (s : Vm) (e i : ℕ) (va size : BitVec 32) : Prop where
  page : va.toNat % 4096 = 0 ∧ size.toNat % 4096 = 0
  covers : (s.vma e i).covers va = true
  inside : va.toNat + size.toNat ≤ (s.vma e i).stop

section

variable {s s' : KState} {cur i d : ℕ} {la lf : List ℕ} {va size : BitVec 32}

/-- **What a successful call does to memory.** -/
theorem sysVmaDestroy_destroyed (h : Sorted (s.vm.envs cur) la lf) (hi : i ∈ la)
    (henv : s.held .env = false) (hp : s.held .pagealloc = false) (hd : s.vm.pgdir cur = some d)
    (ht : TlbTables s.vm.mm d) (hc : (s.vm.vma cur i).covers va = true)
    (hrun : Kern.sysVmaDestroy cur va size s = .ok (0, s')) :
    s'.vm.pgdir cur = some d ∧
      Destroyed s.vm.mm s'.vm.mm d ((s.vm.vma cur i).va.toNat / 4096)
        ((s.vm.vma cur i).len.toNat / 4096) := by
  have hfits : (s.vm.vma cur i).Fits := h.fits hi
  have hlook : vmaLookup (s.vm.envs cur) va = .ok (some i) := by
    obtain ⟨pre, post, rfl⟩ := List.append_of_mem hi
    exact h.ordered.lookup hc
  rw [Kern.sysVmaDestroy_eq henv hp] at hrun
  cases hvm : destroyVm s.vm cur va size with
  | error c =>
      rw [hvm] at hrun
      exact nomatch hrun
  | ok r =>
      obtain ⟨a, vm⟩ := r
      rw [hvm] at hrun
      obtain ⟨rfl, rfl⟩ := Prod.mk.inj (Except.ok.inj hrun)
      obtain ⟨s₁, hpages, hmm, hpg⟩ := destroyVm_removes h.ordered hlook hvm
      obtain ⟨hpg₁, hdes⟩ := vmaRemovePages_destroyed hfits ht hd hpages
      refine ⟨(hpg cur).trans ((hpg₁ cur).trans hd), ?_⟩
      change Destroyed s.vm.mm vm.mm d _ _
      rw [hmm]
      exact hdes

/-- The pages of a range inside an area lie below `UTOP`. -/
theorem RangeIn.low {s : Vm} {e i : ℕ} (hr : RangeIn s e i va size) (hv : (s.vma e i).Fits) {q : ℕ}
    (hq : q < (va.toNat + size.toNat) / 4096) : q / 1024 < pdx uTop := by
  have hU : uTop.toNat = 4005560320 := rfl
  have hpdx : pdx uTop = 955 := rfl
  have hlow := hv.low
  have hinside := hr.inside
  rw [Vma.stop] at hinside
  omega

end

/-! ### A machine with one page table -/

/-- The words of the machine: the directory is frame 1, its page table frame 2. -/
def tableWord (ptes : ℕ → BitVec 32) (f i : ℕ) : BitVec 32 :=
  if f = 1 ∧ i = 0 then 0x2007 else if f = 2 then ptes i else 0

/-- **A machine with one page table**, whose entries are `ptes`. Every frame has four references. -/
def Vm.ofTable (ptes : ℕ → BitVec 32) (as : List Vma) : Vm :=
  let s := Vm.ofWords 16 frames_sixteen (tableWord ptes) fun _ => Space.ofAreas (some 1) as 8
  { s with mm := { s.mm with pages := fun _ => { PageInfo.zero with ppRef := 4 } } }

/-- The value that a call returns. -/
def returned (r : Except Crash (BitVec 32 × Vm)) : Option (BitVec 32) := r.toOption.map Prod.fst

theorem returned_eq {r : Except Crash (BitVec 32 × Vm)} {a : BitVec 32} (h : returned r = some a) :
    ∃ vm, r = .ok (a, vm) := by
  cases r with
  | error c => exact nomatch h
  | ok p => exact ⟨p.2, by rw [← Option.some.inj h]⟩

section

variable {ptes : ℕ → BitVec 32} {as : List Vma}

theorem ofTable_word (f i : ℕ) : (Vm.ofTable ptes as).mm.word f i = tableWord ptes f i :=
  Mm.word_bytesOf (w := tableWord ptes) rfl i

theorem ofTable_leaf {q : ℕ} (hq : q < 1024) :
    (Vm.ofTable ptes as).mm.leaf 1 q = some (ptes q, false) := by
  have hdir : (Vm.ofTable ptes as).mm.word 1 (q / 1024) = tablePde 2 := by
    rw [ofTable_word, Nat.div_eq_of_lt hq]
    rfl
  rw [Mm.leaf_of_table (by decide) hdir, ofTable_word, Nat.mod_eq_of_lt hq]
  rfl

theorem ofTable_leaf_none {q : ℕ} (hq : ¬ q < 1024) : (Vm.ofTable ptes as).mm.leaf 1 q = none := by
  rw [Mm.leaf_eq_none, ofTable_word, tableWord, if_neg (by omega), if_neg (by decide)]
  decide

theorem ofTable_hasTable {i : ℕ} (h : (Vm.ofTable ptes as).mm.HasTable 1 i) : i = 0 := by
  by_contra hi
  have hP := h.1
  rw [ofTable_word, tableWord, if_neg fun hc => hi hc.2, if_neg (by decide)] at hP
  exact absurd hP (by decide)

theorem ofTable_tables : TlbTables (Vm.ofTable ptes as).mm 1 where
  unmarked _ _ := by
    change PageInfo.has { PageInfo.zero with ppRef := 4 } poisonAfterFree = false
    decide
  user i _ h := by
    rw [ofTable_hasTable h, ofTable_word]
    change pgnum 0x2007 ≠ 1
    decide
  apart i _ j _ hi hj _ := by rw [ofTable_hasTable hi, ofTable_hasTable hj]

/-- A successful call on the machine. -/
theorem ofTable_destroys {va size : BitVec 32}
    (h : returned (destroyVm (.ofTable ptes as) 0 va size) = some 0) :
    ∃ vm, Kern.sysVmaDestroy 0 va size (.ofVm (.ofTable ptes as)) = .ok (0, .ofVm vm) := by
  obtain ⟨vm, hvm⟩ := returned_eq h
  refine ⟨vm, ?_⟩
  rw [Kern.sysVmaDestroy_eq rfl rfl]
  change KState.after _ _ (destroyVm (.ofTable ptes as) 0 va size) = _
  rw [hvm]
  rfl

end

/-! ### When a range is unmapped -/

/-- **When a range is unmapped**: none of its pages is swapped out, and the removal, which starts
with the area, comes to each of its pages that is present. -/
theorem destroy_unmaps_iff (s s' : KState) (cur i d : ℕ) (la lf : List ℕ) (va size : BitVec 32)
    (h : Sorted (s.vm.envs cur) la lf) (hi : i ∈ la) (henv : s.held .env = false)
    (hp : s.held .pagealloc = false) (hd : s.vm.pgdir cur = some d) (ht : TlbTables s.vm.mm d)
    (hr : RangeIn s.vm cur i va size) (hrun : Kern.sysVmaDestroy cur va size s = .ok (0, s')) :
    Unmapped s'.vm cur va size ↔
      ∀ q, va.toNat / 4096 ≤ q → q < (va.toNat + size.toNat) / 4096 →
        ∀ w b, s.vm.mm.leaf d q = some (w, b) →
        isSwapped w = false ∧ (isPresent w = true →
          s.vm.mm.Drops d ((s.vm.vma cur i).va.toNat / 4096)
            ((s.vm.vma cur i).len.toNat / 4096) q) := by
  obtain ⟨hpg, hdes⟩ := sysVmaDestroy_destroyed h hi henv hp hd ht hr.covers hrun
  constructor
  · intro hun q hle hlt w b hw
    have hlow := hr.low (h.fits hi) hlt
    by_cases hdrop : s.vm.mm.Drops d ((s.vm.vma cur i).va.toNat / 4096)
      ((s.vm.vma cur i).len.toNat / 4096) q
    · obtain ⟨w', b', hw', hP⟩ := hdrop.mapped
      rw [hw] at hw'
      obtain ⟨rfl, rfl⟩ := Prod.mk.inj (Option.some.inj hw')
      exact ⟨by rw [isSwapped, hP]; rfl, fun _ => hdrop⟩
    · obtain ⟨hP, hsw⟩ := hun d hpg q hle hlt w b ((hdes.kept q hlow hdrop).trans hw)
      refine ⟨hsw, fun hc => ?_⟩
      rw [hP] at hc
      exact nomatch hc
  · intro hcond d' hd' q hle hlt w b hw
    obtain rfl : d = d' := Option.some.inj (hpg.symm.trans hd')
    have hlow := hr.low (h.fits hi) hlt
    by_cases hdrop : s.vm.mm.Drops d ((s.vm.vma cur i).va.toNat / 4096)
      ((s.vm.vma cur i).len.toNat / 4096) q
    · rcases hdes.dropped q hlow hdrop with hnone | hzero
      · rw [hnone] at hw
        exact nomatch hw
      · rw [hzero] at hw
        obtain ⟨rfl, rfl⟩ := Prod.mk.inj (Option.some.inj hw)
        exact ⟨by decide, by decide⟩
    · obtain ⟨hsw, hP⟩ := hcond q hle hlt w b ((hdes.kept q hlow hdrop).symm.trans hw)
      refine ⟨?_, hsw⟩
      cases hPw : isPresent w with
      | false => rfl
      | true => exact absurd (hP hPw) hdrop

/-- The entries of two pages that are present. -/
def presentPtes (q : ℕ) : BitVec 32 := if q = 1 then 0x3007 else if q = 2 then 0x4007 else 0

/-- One of two pages, the first one, is unmapped. -/
theorem destroy_unmaps_iff_first :
    ∃ s', Kern.sysVmaDestroy 0 0x1000 0x1000 (.ofVm
      (.ofTable presentPtes [userArea 0x1000 0x2000])) =
    .ok (0, s') ∧ Unmapped s'.vm 0 0x1000 0x1000 := by
  obtain ⟨vm, hrun⟩ :=
    @ofTable_destroys presentPtes [userArea 0x1000 0x2000] 0x1000 0x1000 (by decide +kernel)
  refine ⟨_, hrun, (destroy_unmaps_iff (.ofVm (.ofTable presentPtes [userArea 0x1000 0x2000])) _ 0 0
    1 _ _ 0x1000 0x1000
    (@ofAreas_sorted [userArea 0x1000 0x2000] (by decide) (by decide) (some 1) 8) (by decide) rfl
      rfl rfl ofTable_tables
    ⟨by decide, by decide, by decide⟩ hrun).2 fun q hle hlt w b hw => ?_⟩
  obtain rfl : q = 1 := by
    have h1 : 1 ≤ q := hle
    have h2 : q < 2 := hlt
    omega
  have hleaf : (Vm.ofTable presentPtes [userArea 0x1000 0x2000]).mm.leaf 1
      1 = some (0x3007, false) := ofTable_leaf (by decide)
  obtain ⟨rfl, rfl⟩ := Prod.mk.inj (Option.some.inj (hw.symm.trans hleaf))
  exact ⟨by decide, fun _ => ⟨1, Nat.le_refl _, by decide, Mm.reached_self _ _ _,
    ⟨_, _, hleaf, by decide⟩, Or.inl rfl⟩⟩

/-- The entry of a page that has been swapped out. -/
def swappedPtes (q : ℕ) : BitVec 32 := if q = 1 then 0x3100 else 0

/-- **A page that has been swapped out** keeps its slot. -/
theorem destroy_keeps_slot :
    (∃ lf, Sorted ((Vm.ofTable swappedPtes [userArea 0x1000 0x1000]).envs 0) [0] lf) ∧
    TlbTables (Vm.ofTable swappedPtes [userArea 0x1000 0x1000]).mm 1 ∧
    RangeIn (.ofTable swappedPtes [userArea 0x1000 0x1000]) 0 0 0x1000 0x1000 ∧
    ∃ s', Kern.sysVmaDestroy 0 0x1000 0x1000 (.ofVm
      (.ofTable swappedPtes [userArea 0x1000 0x1000])) = .ok (0, s') ∧
      ¬ Unmapped s'.vm 0 0x1000 0x1000 := by
  have hsorted := @ofAreas_sorted [userArea 0x1000 0x1000] (by decide) (by decide) (some 1) 8
  obtain ⟨vm, hrun⟩ :=
    @ofTable_destroys swappedPtes [userArea 0x1000 0x1000] 0x1000 0x1000 (by decide +kernel)
  refine ⟨⟨_, hsorted⟩, ofTable_tables, ⟨by decide, by decide, by decide⟩, _, hrun, fun hun => ?_⟩
  obtain ⟨hpg, hdes⟩ := @sysVmaDestroy_destroyed _ _ 0 0 1 [0] _ 0x1000 0x1000 hsorted (by decide)
    rfl rfl rfl ofTable_tables
    (by decide) hrun
  have hleaf : (Vm.ofTable swappedPtes [userArea 0x1000 0x1000]).mm.leaf 1
      1 = some (0x3100, false) := ofTable_leaf (by decide)
  have hno : ¬ (Vm.ofTable swappedPtes [userArea 0x1000 0x1000]).mm.Drops 1 1 1 1 := by
    intro hdrop
    obtain ⟨w, b, hw, hP⟩ := hdrop.mapped
    obtain ⟨rfl, -⟩ := Prod.mk.inj (Option.some.inj (hw.symm.trans hleaf))
    exact absurd hP (by decide)
  have hsw :=
    (hun 1 hpg 1 (by decide) (by decide) _ _ ((hdes.kept 1 (by decide) hno).trans hleaf)).2
  exact absurd hsw (by decide)

/-! ### When the rest of the area is kept -/

/-- **When the rest of the area is kept**: no page outside the range is one that the removal, which
is of the whole area, comes to. The frames of the pages are not page tables, and no caller asks for
poisoning. -/
theorem destroy_keeps_rest_iff (s s' : KState) (cur i d : ℕ) (la lf : List ℕ) (va size : BitVec 32)
    (h : Sorted (s.vm.envs cur) la lf) (hi : i ∈ la) (henv : s.held .env = false)
    (hp : s.held .pagealloc = false)
    (hd : s.vm.pgdir cur = some d) (ht : TlbTables s.vm.mm d) (hr : RangeIn s.vm cur i va size)
    (haside : ∀ q, q / 1024 < pdx uTop → ∀ f b, s.vm.mm.translate d q = some (f, b) →
      s.vm.mm.Aside d f)
    (hrun : Kern.sysVmaDestroy cur va size s = .ok (0, s')) :
    RestKept s.vm s'.vm cur va size ↔
      ∀ q, q / 1024 < pdx uTop → (q < va.toNat / 4096 ∨ (va.toNat + size.toNat) / 4096 ≤ q) →
        ¬ s.vm.mm.Drops d ((s.vm.vma cur i).va.toNat / 4096)
          ((s.vm.vma cur i).len.toNat / 4096) q := by
  obtain ⟨hpg, hdes⟩ := sysVmaDestroy_destroyed h hi henv hp hd ht hr.covers hrun
  constructor
  · rintro ⟨-, hkept⟩ q hlow hout hdrop
    have hsame := (hkept d hd q hlow hout).1
    obtain ⟨w, b, hw, hP⟩ := hdrop.mapped
    rw [hw] at hsame
    rcases hdes.dropped q hlow hdrop with hnone | hzero
    · rw [hnone] at hsame
      exact nomatch hsame
    · rw [hzero] at hsame
      obtain ⟨rfl, -⟩ := Prod.mk.inj (Option.some.inj hsame)
      exact absurd hP (by decide)
  · intro hno
    refine ⟨hpg.trans hd.symm, fun d' hd' q hlow hout => ?_⟩
    obtain rfl : d = d' := Option.some.inj (hd.symm.trans hd')
    exact ⟨hdes.kept q hlow (hno q hlow hout), fun f b hf => hdes.aside f (haside q hlow f b hf)⟩

theorem ofTable_aside {ptes : ℕ → BitVec 32} {as : List Vma}
    (hf : ∀ q < 1024, isPresent (ptes q) = true → 2 < pgnum (ptes q)) (q f : ℕ) (b : Bool)
    (h : (Vm.ofTable ptes as).mm.translate 1 q = some (f, b)) :
    (Vm.ofTable ptes as).mm.Aside 1 f := by
  have hlarge : 2 < f := by
    rw [Mm.translate] at h
    by_cases hq : q < 1024
    · rw [ofTable_leaf hq] at h
      dsimp only at h
      split at h
      · obtain ⟨rfl, -⟩ := Prod.mk.inj (Option.some.inj h)
        exact hf q hq (by assumption)
      · cases h
    · rw [ofTable_leaf_none hq] at h
      cases h
  refine ⟨fun _ => ?_, ?_⟩
  · change PageInfo.has { PageInfo.zero with ppRef := 4 } poisonAfterFree = false
    decide
  · rintro (rfl | ⟨i, -, ht, rfl⟩)
    · exact absurd hlarge (by decide)
    · rw [ofTable_hasTable ht, ofTable_word] at hlarge
      change 2 < pgnum 0x2007 at hlarge
      exact absurd hlarge (by decide)

theorem presentPtes_frames :
    ∀ q < 1024, isPresent (presentPtes q) = true → 2 < pgnum (presentPtes q) := by
  intro q _ hP
  unfold presentPtes at hP ⊢
  by_cases h1 : q = 1
  · rw [if_pos h1]
    decide
  · rw [if_neg h1] at hP ⊢
    by_cases h2 : q = 2
    · rw [if_pos h2]
      decide
    · rw [if_neg h2] at hP
      exact absurd hP (by decide)

/-- In a directory of small pages only pages of the range with a present entry are dropped. -/
theorem ofTable_drops {ptes : ℕ → BitVec 32} {as : List Vma} {first n q : ℕ}
    (hlow : first + n ≤ 1024) (h : (Vm.ofTable ptes as).mm.Drops 1 first n q) :
    first ≤ q ∧ q < first + n ∧ isPresent (ptes q) = true := by
  obtain ⟨p, hle, hlt, -, ⟨w, b, hw, hP⟩, hpq⟩ := h
  have hleaf : (Vm.ofTable ptes as).mm.leaf 1 p = some (ptes p, false) :=
    ofTable_leaf (by omega)
  obtain ⟨rfl, rfl⟩ := Prod.mk.inj (Option.some.inj (hw.symm.trans hleaf))
  rcases hpq with rfl | ⟨hH, hpq⟩
  · exact ⟨hle, hlt, hP⟩
  · have hdir : (Vm.ofTable ptes as).mm.word 1 0 = 0x2007 := ofTable_word 1 0
    rw [← hpq, Nat.div_eq_of_lt (by omega)] at hH
    change isHuge ((Vm.ofTable ptes as).mm.word 1 0) = true at hH
    rw [hdir] at hH
    exact absurd hH (by decide)

/-- A page that is present, one of the same area that is swapped out, and one of another area. -/
def restPtes (q : ℕ) : BitVec 32 :=
  if q = 1 then 0x3007 else if q = 2 then 0x4100 else if q = 5 then 0x5007 else 0

theorem restPtes_frames (q : ℕ) (_ : q < 1024) (hP : isPresent (restPtes q) = true) :
    2 < pgnum (restPtes q) := by
  unfold restPtes at hP ⊢
  split_ifs at hP ⊢ with h1 h2 h5
  · decide
  · exact absurd hP (by decide)
  · decide
  · exact absurd hP (by decide)

/-- Two areas with these pages. -/
def Vm.twoAreas : Vm := Vm.ofTable restPtes [userArea 0x1000 0x2000, userArea 0x5000 0x1000]

/-- The first page of an area is given up, and the swapped page behind it and the page of the next
area stay. -/
theorem destroy_keeps_rest_iff_part :
    Vm.twoAreas.mm.leaf 1 2 = some (0x4100, false) ∧
      Vm.twoAreas.mm.leaf 1 5 = some (0x5007, false) ∧
      ∃ s', Kern.sysVmaDestroy 0 0x1000 0x1000 (.ofVm Vm.twoAreas) = .ok (0, s') ∧
        RestKept Vm.twoAreas s'.vm 0 0x1000 0x1000 := by
  obtain ⟨vm, hrun⟩ := @ofTable_destroys restPtes [userArea 0x1000 0x2000, userArea 0x5000 0x1000]
    0x1000 0x1000 (by decide +kernel)
  refine ⟨ofTable_leaf (by decide), ofTable_leaf (by decide), _, hrun,
    (destroy_keeps_rest_iff (.ofVm Vm.twoAreas) _ 0 0 1 _ _ 0x1000 0x1000
      (@ofAreas_sorted [userArea 0x1000 0x2000, userArea 0x5000 0x1000] (by decide) (by decide)
        (some 1) 8) (by decide) rfl rfl rfl ofTable_tables ⟨by decide, by decide, by decide⟩
      (fun q _ => ofTable_aside restPtes_frames q) hrun).2 fun q _ hout hdrop => ?_⟩
  obtain ⟨hle, hlt, hP⟩ := ofTable_drops (by decide) hdrop
  have hva : (Vm.twoAreas.vma 0 0).va.toNat / 4096 = 1 := rfl
  have hlen : (Vm.twoAreas.vma 0 0).len.toNat / 4096 = 2 := rfl
  change (Vm.twoAreas.vma 0 0).va.toNat / 4096 ≤ q at hle
  change q < (Vm.twoAreas.vma 0 0).va.toNat / 4096 + (Vm.twoAreas.vma 0 0).len.toNat / 4096 at hlt
  have hrange : q < 1 ∨ 2 ≤ q := hout
  obtain rfl : q = 2 := by omega
  exact absurd hP (by decide)

/-- **The second of two pages is lost** when the first one is unmapped. -/
theorem destroy_loses_rest :
    (∃ lf, Sorted ((Vm.ofTable presentPtes [userArea 0x1000 0x2000]).envs 0) [0] lf) ∧
    TlbTables (Vm.ofTable presentPtes [userArea 0x1000 0x2000]).mm 1 ∧
    RangeIn (.ofTable presentPtes [userArea 0x1000 0x2000]) 0 0 0x1000 0x1000 ∧
    (∀ q f b, (Vm.ofTable presentPtes [userArea 0x1000 0x2000]).mm.translate 1 q = some (f, b) →
      (Vm.ofTable presentPtes [userArea 0x1000 0x2000]).mm.Aside 1 f) ∧
    ∃ s', Kern.sysVmaDestroy 0 0x1000 0x1000 (.ofVm
      (.ofTable presentPtes [userArea 0x1000 0x2000])) = .ok (0, s') ∧
      ¬ RestKept (.ofTable presentPtes [userArea 0x1000 0x2000]) s'.vm 0 0x1000 0x1000 := by
  have hsorted := @ofAreas_sorted [userArea 0x1000 0x2000] (by decide) (by decide) (some 1) 8
  obtain ⟨vm, hrun⟩ :=
    @ofTable_destroys presentPtes [userArea 0x1000 0x2000] 0x1000 0x1000 (by decide +kernel)
  refine ⟨⟨_, hsorted⟩, ofTable_tables, ⟨by decide, by decide, by decide⟩,
    ofTable_aside presentPtes_frames, _, hrun, fun hkept => ?_⟩
  obtain ⟨-, hdes⟩ := @sysVmaDestroy_destroyed _ _ 0 0 1 [0] _ 0x1000 0x1000 hsorted (by decide) rfl
    rfl rfl ofTable_tables
    (by decide) hrun
  have hleaf₁ : (Vm.ofTable presentPtes [userArea 0x1000 0x2000]).mm.leaf 1
      1 = some (0x3007, false) := ofTable_leaf (by decide)
  have hleaf₂ : (Vm.ofTable presentPtes [userArea 0x1000 0x2000]).mm.leaf 1
      2 = some (0x4007, false) := ofTable_leaf (by decide)
  -- the loop comes to the second page by the first one
  have hdrop : (Vm.ofTable presentPtes [userArea 0x1000 0x2000]).mm.Drops 1 1 2 2 := by
    refine ⟨2, by decide, by decide, fun p h1 h2 => ?_, ⟨_, _, hleaf₂, by decide⟩, Or.inl rfl⟩
    obtain rfl : p = 1 := by omega
    refine ⟨by rw [hleaf₁]; exact fun hc => (nomatch hc), fun hH => ?_⟩
    rw [(Mm.leaf_eq_some hleaf₁).2.1] at hH
    exact nomatch hH
  have hsame := (hkept.2 1 rfl 2 (by decide) (Or.inr (by decide))).1
  rw [hleaf₂] at hsame
  rcases hdes.dropped 2 (by decide) hdrop with hnone | hzero
  · exact nomatch hsame.symm.trans hnone
  · exact absurd (hsame.symm.trans hzero) (by decide)

end Jos
