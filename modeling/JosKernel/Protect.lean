/-
**What `sys_vma_protect` changes.**

`sys_vma_protect` gives a range of one area a permission of its own: it cuts the range out of the
area, changes the permission of the area and of the entries of its pages, and merges neighbours. It
does nothing when the area has the permission already, stops at the first page without a page table,
and returns 0 when merging fails, after everything has been changed.

Main definitions:

* `Jos.PermAt` — the permission of the area at an address;
* `Jos.Protected`, `Jos.AsBefore` — what the call is to do when it returns 1, and when it returns 0;
* `Jos.protectedSpans` — the areas with the range cut out.

Main results:

* `Jos.vmaChangePerm_renewed` — what `vma_change_perm` does to the page tables;
* `Jos.protectVm_changed` — the state after a call that changes something;
* `Jos.protect_exact_iff` — **when `sys_vma_protect` is complete and atomic**.
-/

import JosKernel.AreaMerge
import JosKernel.TlbInsert
import JosKernel.Unmap

set_option relaxedAutoImplicit false
set_option autoImplicit false

namespace Jos

open LinkedList Outcome

/-! ### The permission at an address -/

/-- **The permission of the area at an address.** -/
def PermAt (as : List Vma) (a p : BitVec 32) : Prop := ∃ v ∈ as, v.covers a = true ∧ v.perm = p

/-- The same for areas given by their ends. -/
def SpanAt (ss : List Span) (a : ℕ) (p : BitVec 32) : Prop :=
  ∃ x ∈ ss, x.start ≤ a ∧ a < x.stop ∧ x.perm = p

theorem permAt_iff {as : List Vma} (h : AreasApart as) {a p : BitVec 32} :
    PermAt as a p ↔ SpanAt (as.map Vma.span) a.toNat p := by
  constructor
  · rintro ⟨v, hv, hc, hp⟩
    obtain ⟨h₁, h₂⟩ := (h.proper v hv).covers_iff.1 hc
    exact ⟨v.span, List.mem_map_of_mem hv, h₁, h₂, hp⟩
  · rintro ⟨x, hx, h₁, h₂, hp⟩
    obtain ⟨v, hv, rfl⟩ := List.mem_map.1 hx
    exact ⟨v, hv, (h.proper v hv).covers_iff.2 ⟨h₁, h₂⟩, hp⟩

theorem spanAt_append {ss ts : List Span} {a : ℕ} {p : BitVec 32} :
    SpanAt (ss ++ ts) a p ↔ SpanAt ss a p ∨ SpanAt ts a p := by
  simp only [SpanAt, List.mem_append, or_and_right, exists_or]

theorem spanAt_singleton {x : Span} {a : ℕ} {p : BitVec 32} :
    SpanAt [x] a p ↔ x.start ≤ a ∧ a < x.stop ∧ x.perm = p := by
  simp [SpanAt]

theorem spanAt_part {v : Vma} {b c a : ℕ} {p : BitVec 32} :
    SpanAt (v.part b c) a p ↔ b ≤ a ∧ a < c ∧ v.perm = p := by
  unfold Vma.part
  by_cases hbc : b < c
  · rw [if_pos hbc, spanAt_singleton]
  · rw [if_neg hbc]
    refine ⟨fun h => ?_, fun h => ?_⟩
    · obtain ⟨x, hx, -⟩ := h
      exact absurd hx List.not_mem_nil
    · omega

/-- The areas once a range of `V` has the permission `perm`. -/
def protectedSpans (before : List Vma) (V : Vma) (after : List Vma) (va size perm : BitVec 32) :
    List Span :=
  before.map Vma.span ++ (V.part V.va.toNat va.toNat ++
    [⟨va.toNat, va.toNat + size.toNat, V.type, perm⟩] ++
    V.part (va.toNat + size.toNat) V.stop) ++ after.map Vma.span

section

variable {before after : List Vma} {V : Vma} {va size perm : BitVec 32}

/-- The areas beside `V` do not have the addresses of `V`. -/
theorem spanAt_beside (h : AreasApart (before ++ V :: after)) {a : ℕ} {p : BitVec 32}
    (hlow : V.va.toNat ≤ a) (hstop : a < V.stop) :
    ¬ SpanAt (before.map Vma.span) a p ∧ ¬ SpanAt (after.map Vma.span) a p := by
  obtain ⟨-, hbehind, hbefore⟩ := List.pairwise_append.1 h.order
  constructor
  · rintro ⟨x, hx, h₁, h₂, -⟩
    obtain ⟨v, hv, rfl⟩ := List.mem_map.1 hx
    have hb : v.stop ≤ V.va.toNat := hbefore v hv V List.mem_cons_self
    have h₂ : a < v.stop := h₂
    omega
  · rintro ⟨x, hx, h₁, h₂, -⟩
    obtain ⟨v, hv, rfl⟩ := List.mem_map.1 hx
    have hb : V.stop ≤ v.va.toNat := (List.pairwise_cons.1 hbehind).1 v hv
    have h₁ : v.va.toNat ≤ a := h₁
    omega

/-- **In the range** the permission is the new one. -/
theorem protectedSpans_inside (h : AreasApart (before ++ V :: after)) (hcut : Cut V va size) {a : ℕ}
    {p : BitVec 32} (hlow : va.toNat ≤ a) (hstop : a < va.toNat + size.toNat) :
    SpanAt (protectedSpans before V after va size perm) a p ↔ p = perm := by
  have hstart := hcut.start
  have hinside := hcut.inside
  obtain ⟨hb, ha⟩ := @spanAt_beside _ _ _ h a p (by omega) (by omega)
  rw [protectedSpans, spanAt_append, spanAt_append, spanAt_append, spanAt_append, spanAt_part,
    spanAt_part, spanAt_singleton,
    or_iff_left ha, or_iff_right hb, or_iff_left (by omega), or_iff_right (by omega)]
  exact ⟨fun hp => hp.2.2.symm, fun hp => ⟨hlow, hstop, hp.symm⟩⟩

/-- **Outside the range** the permission is the old one. -/
theorem protectedSpans_outside (hcut : Cut V va size) {a : ℕ} {p : BitVec 32}
    (hout : a < va.toNat ∨ va.toNat + size.toNat ≤ a) :
    SpanAt (protectedSpans before V after va size perm) a p ↔
      SpanAt ((before ++ V :: after).map Vma.span) a p := by
  have hstart := hcut.start
  have hinside := hcut.inside
  have hV : SpanAt [V.span] a p ↔ V.va.toNat ≤ a ∧ a < V.stop ∧ V.perm = p := spanAt_singleton
  have hmid : SpanAt (V.part V.va.toNat va.toNat ++
      [⟨va.toNat, va.toNat + size.toNat, V.type, perm⟩] ++
      V.part (va.toNat + size.toNat) V.stop) a p ↔ SpanAt [V.span] a p := by
    have hno : ¬ SpanAt [⟨va.toNat, va.toNat + size.toNat, V.type, perm⟩] a p := by
      rw [spanAt_singleton]
      rintro ⟨h₁, h₂, -⟩
      have h₁ : va.toNat ≤ a := h₁
      have h₂ : a < va.toNat + size.toNat := h₂
      omega
    rw [hV, spanAt_append, spanAt_append, or_iff_left hno, spanAt_part, spanAt_part]
    constructor
    · rintro (⟨h₁, h₂, hp⟩ | ⟨h₁, h₂, hp⟩)
      · exact ⟨h₁, by omega, hp⟩
      · exact ⟨by omega, h₂, hp⟩
    · rintro ⟨h₁, h₂, hp⟩
      rcases hout with hlt | hle
      · exact Or.inl ⟨h₁, hlt, hp⟩
      · exact Or.inr ⟨hle, h₂, hp⟩
  have happ : (before ++ V :: after).map Vma.span = before.map Vma.span ++
      ([V.span] ++ after.map Vma.span) := by simp
  rw [happ, protectedSpans, spanAt_append, spanAt_append, hmid, spanAt_append,
    spanAt_append, or_assoc]

end

/-! ### Neighbours -/

/-- Two neighbours that `vma_list_merge` merges. -/
def Span.Joins (x y : Span) : Prop :=
  x.stop = y.start ∧ x.perm = y.perm ∧ x.type ≠ .binary ∧ y.type ≠ .binary

instance (x y : Span) : Decidable (x.Joins y) := inferInstanceAs (Decidable (_ ∧ _ ∧ _ ∧ _))

/-- No two neighbours are merged. -/
def NoJoin (ss : List Span) : Prop := ss.IsChain fun x y => ¬ x.Joins y

instance (ss : List Span) : Decidable (NoJoin ss) := inferInstanceAs (Decidable (List.IsChain _ ss))

theorem unmerged_iff {sp : Space} {la lf : List ℕ} (h : Ordered sp la lf) :
    Unmerged sp la ↔ NoJoin ((sp.areas la).map Vma.span) := by
  have hjoin : ∀ i ∈ la, ∀ j, (sp.vmas i).mergesWith (sp.vmas j) = false ↔
      ¬ (sp.vmas i).span.Joins (sp.vmas j).span := by
    intro i hi j
    rw [← Bool.not_eq_true, Vma.mergesWith_iff, ← BitVec.toNat_inj, (h.proper hi).toNat_stop]
    rfl
  have hbody : (sp.areas la).map Vma.span = la.map fun i => (sp.vmas i).span := by
    rw [Space.areas, List.map_map]
    rfl
  rw [Unmerged, NoJoin, hbody, List.isChain_map]
  exact List.IsChain.iff_of_mem_imp fun i j hi _ => hjoin i hi j

/-! ### The pages -/

/-- The page `q` is one that `vma_change_perm` comes to: no page before it is without a page
table. -/
def Mm.Comes (m : Mm) (d first q : ℕ) : Prop := ∀ p, first ≤ p → p < q → m.leaf d p ≠ none

theorem Mm.comes_succ {m : Mm} {d first q : ℕ} (hq : first < q) :
    m.Comes d first q ↔ m.leaf d first ≠ none ∧ m.Comes d (first + 1) q :=
  forall_page_succ hq

/-- **The pages whose entries `vma_change_perm` writes.** -/
theorem Mm.mem_walked {m : Mm} {d : ℕ} : ∀ {n first q : ℕ},
    q ∈ m.walked d n first ↔ first ≤ q ∧ q < first + n ∧ m.Comes d first q ∧ m.Mapped d q := by
  intro n
  induction n with
  | zero =>
      intro first q
      rw [Mm.walked]
      refine ⟨fun h => absurd h List.not_mem_nil, fun h => ?_⟩
      omega
  | succ n ih =>
      intro first q
      have hbehind : q ≠ first →
          (first ≤ q ∧ q < first + (n + 1) ∧ m.Comes d first q ∧ m.Mapped d q ↔
          m.leaf d first ≠ none ∧ q ∈ m.walked d n (first + 1)) := by
        intro hne
        rw [ih]
        constructor
        · rintro ⟨hle, hlt, hc, hm⟩
          obtain ⟨hp, hc⟩ := (Mm.comes_succ (by omega)).1 hc
          exact ⟨hp, by omega, by omega, hc, hm⟩
        · rintro ⟨hp, hle, hlt, hc, hm⟩
          exact ⟨by omega, by omega, (Mm.comes_succ (by omega)).2 ⟨hp, hc⟩, hm⟩
      cases hleaf : m.leaf d first with
      | none =>
          rw [Mm.walked, hleaf]
          refine ⟨fun h => absurd h List.not_mem_nil, fun h => ?_⟩
          rcases eq_or_ne q first with rfl | hne
          · obtain ⟨w, b, hw, -⟩ := h.2.2.2
            rw [hleaf] at hw
            cases hw
          · exact absurd hleaf ((hbehind hne).1 h).1
      | some r =>
          obtain ⟨w, b⟩ := r
          rw [Mm.walked, hleaf]
          dsimp only
          rw [List.mem_append]
          rcases eq_or_ne q first with rfl | hne
          · have hlater : q ∉ m.walked d n (q + 1) := fun hmem => by
              have := (ih.1 hmem).1
              omega
            rw [or_iff_left hlater]
            constructor
            · intro hmem
              split at hmem
              · exact ⟨Nat.le_refl _, by omega, fun p hp hpq => absurd hp (by omega), w, b,
                  hleaf, by assumption⟩
              · exact absurd hmem List.not_mem_nil
            · rintro ⟨-, -, -, w', b', hw', hP⟩
              rw [hleaf] at hw'
              obtain ⟨rfl, rfl⟩ := Prod.mk.inj (Option.some.inj hw')
              rw [if_pos hP]
              exact List.mem_singleton.2 rfl
          · have hsome : m.leaf d first ≠ none := by
              rw [hleaf]
              exact fun hc => by cases hc
            rw [hbehind hne, and_iff_right hsome]
            refine or_iff_right fun hmem => ?_
            split at hmem
            · exact hne (List.mem_singleton.1 hmem)
            · exact absurd hmem List.not_mem_nil

/-- **The page tables after the permission of the `n` pages at `first` has been changed.** -/
structure Renewed (m m' : Mm) (d first n : ℕ) (perm : BitVec 32) : Prop where
  written : ∀ q ∈ m.walked d n first, ∀ w b, m.leaf d q = some (w, b) →
    m'.leaf d q = some (renew perm w, b)
  others : ∀ q, q / 1024 < pdx uTop → q ∉ m.walked d n first → m'.leaf d q = m.leaf d q

theorem RenewedAll.leaf_eq {c₀ c : Core} {d : ℕ} {perm : BitVec 32} {qs : List ℕ}
    (h : RenewedAll c₀ c d perm qs) (ht : TlbTables c₀.vm.mm d) (hsmall : isHuge perm = false)
    {q : ℕ} (hq : q / 1024 < pdx uTop) :
    (q ∈ qs → ∀ w b, c₀.vm.mm.leaf d q = some (w, b) → c.vm.mm.leaf d q = some (renew perm w, b)) ∧
      (q ∉ qs → c.vm.mm.leaf d q = c₀.vm.mm.leaf d q) := by
  have hdir : ∀ i, c.vm.mm.word d i = c₀.vm.mm.word d i := fun i => by
    refine h.words.word_dir_same ((h.renewAll_dir ht i).resolve_right fun hc => ?_)
    rw [hsmall] at hc
    exact nomatch hc.2.1
  have hlow := PtInv.lt_pow_of_low hq
  constructor
  · intro hmem w b hw
    obtain ⟨-, hP, hH⟩ := h.low q hmem
    obtain ⟨-, hH', hword⟩ := Mm.leaf_eq_some hw
    obtain rfl : b = false := by rw [← hH', hH, hsmall]
    rw [h.leaf_small ht hlow hw, Mm.renewAll, if_pos (List.mem_map_of_mem hmem), ← hword]
    rfl
  · intro hmem
    cases hleaf : c₀.vm.mm.leaf d q with
    | none =>
        rw [Mm.leaf_eq_none] at hleaf ⊢
        rw [hdir, hleaf]
    | some r =>
        obtain ⟨w, b⟩ := r
        obtain ⟨hP, hH, hword⟩ := Mm.leaf_eq_some hleaf
        cases b with
        | true =>
            rw [Mm.leafPtr_huge hH] at hword
            rw [Mm.leaf, hdir, if_pos hP, if_pos hH, hword]
        | false =>
            rw [h.leaf_small ht hlow hleaf, Mm.renewAll, if_neg]
            · rfl
            · intro hc
              obtain ⟨q', hq', heq⟩ := List.mem_map.1 hc
              obtain ⟨hlow', hP', hH'⟩ := h.low q' hq'
              rw [hsmall] at hH'
              obtain rfl := ht.leafPtr_inj hq (PtInv.lt_pow_of_low hlow') ⟨hP, hH⟩ ⟨hP', hH'⟩ heq
              exact hmem hq'

/-- **The loop of `vma_change_perm`**, where it comes to no 4 MB page. -/
theorem changePermFrom_renewed {s s' : Vm} {e d n : ℕ} {va perm : BitVec 32} (ht : TlbTables s.mm d)
    (hd : s.pgdir e = some d) (hperm : isHuge perm = false) (hlow : LowPages va 0 n)
    (hsmall : ∀ q ∈ s.mm.walked d n (vpn va), isHuge (s.mm.word d (q / 1024)) = false)
    (hrun : changePermFrom e va perm n 0 s = .ok s') :
    (∀ e', s'.pgdir e' = s.pgdir e') ∧ SameTables s.mm s'.mm d ∧
      Renewed s.mm s'.mm d (vpn va) n perm := by
  -- the same run on a CPU whose TLB is empty
  obtain ⟨c₀, hc₀⟩ : ∃ c₀ : Core, c₀ = ⟨s, some e, fun _ => none, fun _ => none⟩ := ⟨_, rfl⟩
  have hvm : c₀.vm = s := by rw [hc₀]
  have herase := changePermOn_vm e va perm n 0 c₀
  rw [hvm, hrun] at herase
  obtain ⟨c, hc, hcs⟩ := herase.of_ok
  have ht₀ : TlbTables c₀.vm.mm d := by
    rw [hvm]
    exact ht
  have hend := @changePermOn_renewed c₀ e d perm ht₀ (by rw [hc₀]) (by rw [hvm]; exact hd) va n 0 c₀
    [] (RenewedAll.start ht₀)
    hlow fun q hq => by
      rw [Nat.add_zero, hvm] at hq
      rw [hvm, hperm]
      exact hsmall q hq
  have hren := hend.of_ok hc
  rw [List.nil_append, Nat.add_zero] at hren
  have hfacts := fun q hq => hren.leaf_eq ht₀ hperm (q := q) hq
  have htables := hren.sameTables ht₀
  have hpgs := hren.same.pgdir
  rw [hvm, hcs] at hfacts htables hpgs
  refine ⟨hpgs, htables, fun q hq => (hfacts q ?_).1 hq, fun q hlow hq => (hfacts q hlow).2 hq⟩
  obtain ⟨hle, hlt, -⟩ := Mm.mem_walked.1 hq
  exact hlow.page hle hlt

/-- **`vma_change_perm`** of an area without 4 MB pages. -/
theorem vmaChangePerm_renewed {s s' : Vm} {e d i : ℕ} {perm : BitVec 32} (hv : (s.vma e i).Fits)
    (ht : TlbTables s.mm d)
    (hd : s.pgdir e = some d) (hperm : isHuge perm = false)
    (hsmall : ∀ q, (s.vma e i).va.toNat / 4096 ≤ q → q < (s.vma e i).stop / 4096 →
      isHuge (s.mm.word d (q / 1024)) = false)
    (hrun : vmaChangePerm s e i perm = .ok s') :
    (∀ e', s'.pgdir e' = s.pgdir e') ∧
      Renewed s.mm s'.mm d ((s.vma e i).va.toNat / 4096) ((s.vma e i).len.toNat / 4096) perm := by
  have hU : uTop.toNat = 4005560320 := rfl
  have hpage := hv.page
  have hlow := hv.low
  have hstop : (s.vma e i).stop = (s.vma e i).va.toNat + (s.vma e i).len.toNat := rfl
  have hvpn : vpn (s.vma e i).va = (s.vma e i).va.toNat / 4096 := rfl
  have hcount : pageCount (s.vma e i).len = (s.vma e i).len.toNat / 4096 := by
    have hp : pgSize = 4096 := rfl
    rw [pageCount, toNat_roundUp (by omega), pagesOf, hp]
    omega
  obtain ⟨s₁, hs₁⟩ : ∃ s₁, (s.modSpace e fun sp => sp.modVma i fun v => { v with perm := perm }) =
      s₁ := ⟨_, rfl⟩
  have hmod : s₁.vma e i = { s.vma e i with perm := perm } := by
    rw [← hs₁, Vm.vma, Vm.modSpace_self, Space.modVma_self]
    rfl
  have hpg : ∀ e', s₁.pgdir e' = s.pgdir e' := by
    rw [← hs₁]
    exact pgdir_modSpace s e fun _ => rfl
  have hmm : s₁.mm = s.mm := by
    rw [← hs₁]
    rfl
  rw [vmaChangePerm, hs₁, hmod] at hrun
  change changePermFrom e (s.vma e i).va perm (pageCount (s.vma e i).len) 0 s₁ = .ok s' at hrun
  rw [hcount] at hrun
  obtain ⟨hpgs, -, hren⟩ := changePermFrom_renewed (by rw [hmm]; exact ht) ((hpg e).trans hd) hperm
    (LowPages.of_le (by omega))
    (fun q hq => by
      obtain ⟨hle, hlt, -⟩ := Mm.mem_walked.1 hq
      rw [hmm]
      exact hsmall q hle (by omega)) hrun
  rw [hmm, hvpn] at hren
  exact ⟨fun e' => (hpgs e').trans (hpg e'), hren⟩

/-! ### Merging -/

theorem vmaRemoveAlloced_only (s : Vm) (e i : ℕ) :
    Ends (fun _ => True) (fun r => AreasOnly s r.2 e) (vmaRemoveAlloced s e i false) := by
  unfold vmaRemoveAlloced
  dsimp only
  split
  · exact True.intro
  · exact AreasOnly.refl s e
  · exact True.intro
  · rename_i prev j _
    exact @AreasOnly.modSpace s e (fun sp => vmaUnlink sp prev j) (vmaUnlink_keeps _ prev j)

theorem mergeFrom_only (e : ℕ) : ∀ (n old : ℕ) (p : Option ℕ) (s : Vm),
    Ends (fun _ => True) (fun r => AreasOnly s r.2 e) (mergeFrom e n old p s) := by
  intro n
  induction n with
  | zero =>
      intro old p s
      cases p with
      | none => exact AreasOnly.refl s e
      | some i => exact True.intro
  | succ n ih =>
      intro old p s
      cases p with
      | none => exact AreasOnly.refl s e
      | some i =>
          rw [mergeFrom]
          refine Ends.ite_bind (ends_ite (fun _ => ?_) fun _ => ih i _ s)
          have hmod : AreasOnly s (s.modSpace e fun sp => sp.modVma old fun v =>
              { v with len := v.len + (sp.vmas i).len }) e :=
            AreasOnly.modSpace s e ⟨rfl, rfl⟩
          refine Ends.post (vmaRemoveAlloced_only _ e i) fun r hr => ?_
          refine ends_ite (fun _ => ?_) fun _ => hmod.trans hr
          exact (ih i _ r.2).post fun r' hr' => (hmod.trans hr).trans hr'

/-- `vma_list_merge` works on the areas only. -/
theorem vmaListMerge_only (s : Vm) (e : ℕ) :
    Ends (fun _ => True) (fun r => AreasOnly s r.2 e) (vmaListMerge s e) := by
  unfold vmaListMerge
  split
  · exact AreasOnly.refl s e
  · exact mergeFrom_only e _ _ _ s

/-- **`vma_list_merge` keeps the permissions**, and it fails if it merges while there is a free
descriptor. -/
theorem vmaListMerge_perms {s : Vm} {e : ℕ} {la lf : List ℕ} (h : Ordered (s.envs e) la lf) :
    ∃ s' la' lf', vmaListMerge s e = .ok (decide (Unmerged (s.envs e) la ∨ lf = []), s') ∧
      SameMemory s s' ∧
      Ordered (s'.envs e) la' lf' ∧ ∀ a p, PermAt ((s'.envs e).areas la') a p ↔
        PermAt ((s.envs e).areas la) a p := by
  have hmem := (vmaListMerge_only s e).post fun _ hr => hr.memory
  rcases first_merge (s.envs e) la with hun | ⟨pre, u, w, post, rfl, hun, hmerge⟩
  · refine ⟨s, la, lf, ?_, ⟨rfl, fun _ => rfl⟩, h, fun _ _ => Iff.rfl⟩
    rw [vmaListMerge_unmerged h.lists hun, decide_eq_true (Or.inl hun)]
  · have hnot : ¬ Unmerged (s.envs e) (pre ++ u :: w :: post) := by
      intro hc
      have hno := (List.isChain_append_cons_cons.1 hc).2.1
      rw [hmerge] at hno
      exact nomatch hno
    have hperms : ∀ s', Merged s s' e pre post lf u w →
        ∀ a p, PermAt ((s'.envs e).areas (pre ++ u :: post)) a p ↔
        PermAt ((s.envs e).areas (pre ++ u :: w :: post)) a p := by
      intro s' hm a p
      obtain ⟨hmeet, hperm, -, -⟩ := Vma.mergesWith_iff.1 hmerge
      have hu : (s.vma e u).Proper := h.proper (by simp)
      have hw : (s.vma e w).Proper := h.proper (by simp)
      have hapart := (hm.ordered h hmeet).ok
      rw [hm.areas] at hapart ⊢
      have hj := hapart.proper ((s.vma e u).joined (s.vma e w)).body (by simp)
      rw [Space.areas_append, Space.areas_cons, Space.areas_cons]
      exact (@covered_joined _ (fun v => v.perm) (fun _ _ => rfl) _ _ (s.vma e u).body
        (s.vma e w).body ⟨hu.pos, hu.stop⟩
        ⟨hw.pos, hw.stop⟩ hj hmeet hperm.symm a p).symm
    cases lf with
    | nil =>
        obtain ⟨s', hs', hm⟩ := vmaListMerge_full h hun hmerge
        refine ⟨s', _, _, ?_, hmem.of_ok hs', hm.ordered h (Vma.mergesWith_iff.1 hmerge).1,
          hperms s' hm⟩
        rw [hs', decide_eq_true (Or.inr rfl)]
    | cons f lf =>
        obtain ⟨s', hs', hm⟩ := vmaListMerge_fails h (by simp) hun hmerge
        refine ⟨s', _, _, ?_, hmem.of_ok hs', hm.ordered h (Vma.mergesWith_iff.1 hmerge).1,
          hperms s' hm⟩
        rw [hs', decide_eq_false]
        exact fun hc => hc.elim hnot fun hc => (nomatch hc)

/-! ### A call that changes something -/

section

variable {s : Vm} {e i d : ℕ} {pre post lf : List ℕ} {va size perm : BitVec 32}

/-- **The state after a call that has changed the permission** of the range. -/
structure Changed (s s' : Vm) (e d : ℕ) (va size perm : BitVec 32) (spans : List Span) : Prop where
  pgdir : s'.pgdir e = s.pgdir e
  pages : Renewed s.mm s'.mm d (va.toNat / 4096) (size.toNat / 4096) perm
  areas : ∃ la lf, Ordered (s'.envs e) la lf ∧ ∀ a p, PermAt ((s'.envs e).areas la) a p ↔
    SpanAt spans a.toNat p

/-- The areas once the range has been cut out and has its permission. -/
theorem areas_protected {s₁ : Vm} {ls rs lf' : List ℕ} {V : Vma}
    (hrep : Replaced s s₁ e pre (ls ++ [i] ++ rs) post lf'
      (V.part V.va.toNat va.toNat ++ [⟨va.toNat, va.toNat + size.toNat, V.type, V.perm⟩] ++ V.part
        (va.toNat + size.toNat) V.stop))
    (hspan : (s₁.vma e i).span = ⟨va.toNat, va.toNat + size.toNat, V.type, V.perm⟩)
    (hls : ls.length = (V.part V.va.toNat va.toNat).length) :
    ((((s₁.envs e).modVma i fun v => { v with perm := perm }).areas
      (pre ++ (ls ++ [i] ++ rs) ++ post)).map Vma.span =
      protectedSpans ((s.envs e).areas pre) V ((s.envs e).areas post) va size perm) ∧
    rs.length = (V.part (va.toNat + size.toNat) V.stop).length := by
  have hnd := hrep.sorted.lists.alloc.nodup
  have hi : i ∉ pre ++ ls ∧ i ∉ rs ++ post := nodup_split (by simpa using hnd)
  have hother : ∀ l, i ∉ l → ((s₁.envs e).modVma i fun v => { v with perm := perm }).areas l =
      (s₁.envs e).areas l := by
    intro l hl
    refine Space.areas_congr fun j hj => ?_
    rw [Space.modVma_of_ne _ _ (by rintro rfl; exact hl hj)]
  have hself : (((s₁.envs e).modVma i fun v => { v with perm := perm }).areas [i]).map Vma.span =
      [⟨va.toNat, va.toNat + size.toNat, V.type, perm⟩] := by
    have hstart : (s₁.vma e i).va.toNat = va.toNat := congrArg Span.start hspan
    have hstop : (s₁.vma e i).stop = va.toNat + size.toNat := congrArg Span.stop hspan
    have htype : (s₁.vma e i).type = V.type := congrArg Span.type hspan
    rw [Space.areas, List.map_singleton, List.map_singleton, Space.modVma_self]
    change [(⟨(s₁.vma e i).va.toNat, (s₁.vma e i).stop, (s₁.vma e i).type, perm⟩ : Span)] = _
    rw [hstart, hstop, htype]
  have hsame : ∀ l ⊆ pre ++ post, (s₁.envs e).areas l = (s.envs e).areas l := fun l hl =>
    Space.areas_congr fun j hj => hrep.others j (hl hj)
  -- the spans of the parts
  have hspans := hrep.spans
  rw [Space.areas_append, Space.areas_append, List.map_append, List.map_append] at hspans
  have hlen : (((s₁.envs e).areas ls).map Vma.span).length =
    (V.part V.va.toNat va.toNat).length := by
    rw [List.length_map, Space.areas, List.length_map, hls]
  obtain ⟨hleft, hright⟩ := List.append_inj hspans (by
    rw [List.length_append, List.length_append, hlen]
    rfl)
  obtain ⟨hleft, -⟩ := List.append_inj hleft hlen
  constructor
  · rw [protectedSpans, Space.areas_append, Space.areas_append, Space.areas_append,
      Space.areas_append, List.map_append,
      List.map_append, List.map_append, List.map_append, hself,
      hother pre (fun hc => hi.1 (List.mem_append_left _ hc)),
      hother ls (fun hc => hi.1 (List.mem_append_right _ hc)),
      hother rs (fun hc => hi.2 (List.mem_append_left _ hc)),
      hother post (fun hc => hi.2 (List.mem_append_right _ hc)), hleft, hright, hsame pre (by simp),
      hsame post (by simp)]
  · rw [← hright, List.length_map, Space.areas, List.length_map]

/-- The range is the area of a descriptor now, and nothing else has changed. -/
structure Separated (s s₁ : Vm) (e i : ℕ) (va size : BitVec 32) : Prop where
  only : AreasOnly s s₁ e
  fits : (s₁.vma e i).Fits
  start : (s₁.vma e i).va.toNat = va.toNat
  len : (s₁.vma e i).len.toNat = size.toNat

/-- **The areas after a call that changes something**: it returns 1 if there is nothing to merge or
no free descriptor is left, and otherwise 0. -/
theorem protectVm_areas (h : Sorted (s.envs e) (pre ++ i :: post) lf)
    (hcut : Cut (s.vma e i) va size) (hanon : (s.vma e i).type = .anon)
    (hhps : (s.vma e i).hps = false) (hne : (s.vma e i).perm ≠ perm) :
    Ends (fun c => vmaConsistencyCheck (s.vma e i) (s.vma e i).type = false ∨
        Short lf (((s.vma e i).part (s.vma e i).va.toNat va.toNat).length +
          ((s.vma e i).part (va.toNat + size.toNat) (s.vma e i).stop).length) c ∨
        ∃ vm, vmaSplitLookup s e va size false = .ok (some i, vm) ∧
          vmaChangePerm vm e i perm = .error c)
      (fun r => ((s.vma e i).part (s.vma e i).va.toNat va.toNat).length +
          ((s.vma e i).part (va.toNat + size.toNat) (s.vma e i).stop).length ≤ lf.length ∧
        r.1 = (if NoJoin
          (protectedSpans ((s.envs e).areas pre) (s.vma e i) ((s.envs e).areas post) va size perm) ∨
          lf.length = ((s.vma e i).part (s.vma e i).va.toNat va.toNat).length +
            ((s.vma e i).part (va.toNat + size.toNat) (s.vma e i).stop).length then 1 else 0) ∧
        (∃ la lf', Ordered (r.2.envs e) la lf' ∧ ∀ a p, PermAt ((r.2.envs e).areas la) a p ↔
          SpanAt (protectedSpans ((s.envs e).areas pre) (s.vma e i) ((s.envs e).areas post) va size
            perm) a.toNat p) ∧
        ∃ s₁ s₂, Separated s s₁ e i va size ∧ vmaChangePerm s₁ e i perm = .ok s₂ ∧
          SameMemory s₂ r.2)
      (protectVm s e va size perm) := by
  have hfits : (s.vma e i).Fits := h.fits (by simp)
  have hlook : vmaLookup (s.envs e) va = .ok (some i) := h.ordered.lookup (hcut.covers hfits)
  unfold protectVm
  rw [hlook]
  change Ends _ _ (if _ then _ else _)
  rw [if_neg hne]
  by_cases hcheck : vmaConsistencyCheck (s.vma e i) (s.vma e i).type = true
  swap
  · unfold vmaSplitLookup
    rw [hlook]
    change Ends _ _
      ((if ¬ vmaConsistencyCheck (s.vma e i) (s.vma e i).type = true then _ else _) >>= _)
    rw [if_pos hcheck]
    exact Or.inl (Bool.eq_false_of_not_eq_true hcheck)
  have hsplit : vmaSplitLookup s e va size false = vmaSplitParts s e i (s.vma e i) va size false >>=
      fun s' => pure (some i, s') := by
    rw [vmaSplitLookup_begin h hcut hcheck, hhps, if_neg Bool.false_ne_true,
      if_neg (not_not_intro hanon), if_neg Bool.false_ne_true]
  have hkeep := split_keep h rfl hcut hanon
  rw [hsplit]
  cases hs₁ : vmaSplitParts s e i (s.vma e i) va size false with
  | error c => exact Or.inr (Or.inl (hkeep.of_error hs₁))
  | ok s₁ =>
  obtain ⟨ls, rs, lf', rfl, hrep, hspan, hls, honly⟩ := hkeep.of_ok hs₁
  obtain ⟨hareas, hrs⟩ :=
    @areas_protected s e i pre post va size perm s₁ ls rs lf' (s.vma e i) hrep hspan hls
  have hsep : Separated s s₁ e i va size := by
    have hstop : (s₁.vma e i).stop = va.toNat + size.toNat := congrArg Span.stop hspan
    have hva : (s₁.vma e i).va.toNat = va.toNat := congrArg Span.start hspan
    rw [Vma.stop] at hstop
    exact ⟨honly, hrep.sorted.fits (by simp), hva, by omega⟩
  change Ends _ _ (protectEnd s₁ e i perm)
  unfold protectEnd
  cases hchange : vmaChangePerm s₁ e i perm with
  | error c => exact Or.inr (Or.inr ⟨s₁, rfl, hchange⟩)
  | ok s₂ =>
      -- the pages are not areas
      have hlists : (s₂.envs e).lists = ((s₁.envs e).modVma i fun v =>
          { v with perm := perm }).lists := by
        have hsame := (changePermFrom_ends e _ perm _ 0 _).of_ok hchange e
        rw [Vm.modSpace_self] at hsame
        exact hsame
      have hsorted₂ : Sorted (s₂.envs e) (pre ++ (ls ++ [i] ++ rs) ++ post) lf' := by
        have hmod : Sorted ((s₁.envs e).modVma i fun v => { v with perm := perm })
            ((pre ++ ls) ++ i :: (rs ++ post)) lf' := by
          refine Sorted.shrink (by simpa using hrep.sorted) (fun _ => rfl)
            ⟨hsep.fits.page, hsep.fits.pos, hsep.fits.low⟩
            (Nat.le_refl _) (Nat.le_refl _)
        exact Sorted.congr (by simpa using hmod) hlists
      have hareas₂ : ((s₂.envs e).areas (pre ++ (ls ++ [i] ++ rs) ++ post)).map Vma.span =
          protectedSpans ((s.envs e).areas pre) (s.vma e i)
            ((s.envs e).areas post) va size perm := by
        rw [← hareas]
        exact congrArg _ (Space.areas_congr fun j _ => congrArg Vma.body
          (congrFun (congrArg Prod.fst hlists) j))
      obtain ⟨s₃, la₃, lf₃, hmerge, hmem₃, hord₃, hperms₃⟩ := vmaListMerge_perms hsorted₂.ordered
      have hfree : lf' = [] ↔ (ls ++ rs ++ lf').length =
          ((s.vma e i).part (s.vma e i).va.toNat va.toNat).length +
          ((s.vma e i).part (va.toNat + size.toNat) (s.vma e i).stop).length := by
        rw [← List.length_eq_zero_iff, List.length_append, List.length_append, hls, hrs]
        omega
      have hcond : Unmerged (s₂.envs e) (pre ++ (ls ++ [i] ++ rs) ++ post) ∨ lf' = [] ↔ _ :=
        or_congr (unmerged_iff hsorted₂.ordered) hfree
      rw [hareas₂] at hcond
      change Ends _ _ (vmaListMerge s₂ e >>= _)
      rw [hmerge]
      refine ⟨?_, ?_, ⟨la₃, lf₃, hord₃, fun a p => ?_⟩, s₁, s₂, hsep, hchange, hmem₃⟩
      · rw [List.length_append, List.length_append, hls, hrs]
        exact Nat.le_add_right _ _
      · refine ite_congr (propext (decide_eq_true_iff.trans hcond)) (fun _ => rfl) fun _ => rfl
      · rw [← hareas₂, ← permAt_iff hsorted₂.ok.apart]
        exact hperms₃ a p

/-- **The state after a call that changes something.** -/
theorem protectVm_changed (h : Sorted (s.envs e) (pre ++ i :: post) lf)
    (hcut : Cut (s.vma e i) va size)
    (hanon : (s.vma e i).type = .anon) (hhps : (s.vma e i).hps = false)
    (hne : (s.vma e i).perm ≠ perm) (hd : s.pgdir e = some d)
    (ht : TlbTables s.mm d) (hperm : isHuge perm = false)
    (hsmall : ∀ q, va.toNat / 4096 ≤ q → q < (va.toNat + size.toNat) / 4096 →
      isHuge (s.mm.word d (q / 1024)) = false) :
    Ends (fun _ => True)
      (fun r => r.1 = (if NoJoin (protectedSpans ((s.envs e).areas pre) (s.vma e i)
        ((s.envs e).areas post) va size perm) ∨
          lf.length = ((s.vma e i).part (s.vma e i).va.toNat va.toNat).length +
            ((s.vma e i).part (va.toNat + size.toNat) (s.vma e i).stop).length then 1 else 0) ∧
        Changed s r.2 e d va size perm (protectedSpans ((s.envs e).areas pre) (s.vma e i)
          ((s.envs e).areas post) va size perm))
      (protectVm s e va size perm) := by
  refine Ends.mono (protectVm_areas h hcut hanon hhps hne) (fun _ _ => True.intro) ?_
  rintro r ⟨-, hvalue, hareas, s₁, s₂, hsep, hchange, hmem₃⟩
  have hmem₁ : s₁.mm = s.mm := by
    rw [hsep.only.same]
    rfl
  have hstop : (s₁.vma e i).stop = va.toNat + size.toNat := congrArg₂ (· + ·) hsep.start hsep.len
  obtain ⟨hpg, hren⟩ := @vmaChangePerm_renewed s₁ s₂ e d i perm hsep.fits (by rw [hmem₁]; exact ht)
    (hsep.only.pgdir.trans hd) hperm (by rw [hmem₁, hsep.start, hstop]; exact hsmall) hchange
  rw [hmem₁, hsep.start, hsep.len] at hren
  refine ⟨hvalue, ?_, ?_, hareas⟩
  · exact (hmem₃.2 e).trans ((hpg e).trans hsep.only.pgdir)
  · rw [hmem₃.1]
    exact hren

end

/-! ### The property and the condition -/

/-- **The entry has exactly the permissions `perm`**: all flags but `PTE_A` and `PTE_D`. -/
def HasPerm (perm w : BitVec 32) (huge : Bool) : Prop :=
  w &&& 0xF9F#32 = perm ||| pteP ||| (if huge then ptePS else 0)

/-- The address is one of the range. -/
def InRange (va size : BitVec 32) (a : ℕ) : Prop := va.toNat ≤ a ∧ a < va.toNat + size.toNat

/-- The page is one of the range. -/
def PageIn (va size : BitVec 32) (q : ℕ) : Prop :=
  va.toNat / 4096 ≤ q ∧ q < (va.toNat + size.toNat) / 4096

/-- **What the call is to do when it returns 1.** -/
structure Protected (s s' : Vm) (e : ℕ) (la : List ℕ) (va size perm : BitVec 32) : Prop where
  areas : ∃ la' lf', VmaInv (s'.envs e) la' lf' ∧ ∀ a p,
    (InRange va size a.toNat → (PermAt ((s'.envs e).areas la') a p ↔ p = perm)) ∧
    (¬ InRange va size a.toNat → (PermAt ((s'.envs e).areas la') a p ↔
      PermAt ((s.envs e).areas la) a p))
  pgdir : s'.pgdir e = s.pgdir e
  range : ∀ d, s.pgdir e = some d → ∀ q, PageIn va size q → ∀ w b, s'.mm.leaf d q = some (w, b) →
    isPresent w = true →
    HasPerm perm w b
  others : ∀ d, s.pgdir e = some d → ∀ q, q / 1024 < pdx uTop → ¬ PageIn va size q →
    s'.mm.leaf d q = s.mm.leaf d q

/-- **What the call is to do when it returns 0**: nothing. -/
structure AsBefore (s s' : Vm) (e : ℕ) (la : List ℕ) : Prop where
  areas : ∃ la' lf', VmaInv (s'.envs e) la' lf' ∧
    ∀ a p, PermAt ((s'.envs e).areas la') a p ↔ PermAt ((s.envs e).areas la) a p
  pgdir : s'.pgdir e = s.pgdir e
  pages : ∀ d, s.pgdir e = some d → ∀ q, q / 1024 < pdx uTop → s'.mm.leaf d q = s.mm.leaf d q

theorem AsBefore.refl {s : Vm} {e : ℕ} {la lf : List ℕ} (h : VmaInv (s.envs e) la lf) :
    AsBefore s s e la :=
  ⟨⟨la, lf, h, fun _ _ => Iff.rfl⟩, rfl, fun _ _ _ _ => rfl⟩

/-- The permissions that the claim is about. -/
def UserPerm (perm : BitVec 32) : Prop := perm = pteU ∨ perm = pteU ||| pteW

theorem UserPerm.small {perm : BitVec 32} (h : UserPerm perm) : isHuge perm = false := by
  rcases h with rfl | rfl
  · decide
  · decide

/-- The entries that `vma_change_perm` writes have the permissions. -/
theorem hasPerm_renew {perm : BitVec 32} (h : UserPerm perm) (w : BitVec 32) :
    HasPerm perm (renew perm w) false := by
  have hkeep : (perm ||| pteP) &&& 0xF9F#32 = perm ||| pteP := by
    rcases h with rfl | rfl
    · decide
    · decide
  have hgone : ∀ k (hk : k < 32), ((!(0xFFF#32)[k]) && (0xF9F#32)[k]) = false := by decide
  rw [HasPerm, if_neg Bool.false_ne_true, renew_eq, BitVec.or_assoc]
  have hor : (pteAddr w ||| (perm ||| pteP)) &&& 0xF9F#32 = (perm ||| pteP) &&& 0xF9F#32 := by
    unfold pteAddr
    ext k hk
    have hk' := hgone k hk
    simp only [BitVec.getElem_or, BitVec.getElem_and, BitVec.getElem_not]
    cases hF : (0xF9F#32)[k] with
    | false => simp
    | true =>
        rw [hF, Bool.and_true] at hk'
        rw [hk']
        simp
  rw [hor, hkeep]
  simp

section

variable {s s' : Vm} {e i d : ℕ} {pre post lf : List ℕ} {va size perm : BitVec 32}

/-- The areas around `i`, with the descriptor itself. -/
theorem Sorted.around (h : Sorted (s.envs e) (pre ++ i :: post) lf) :
    AreasApart ((s.envs e).areas pre ++ s.vma e i :: (s.envs e).areas post) ∧
      ((s.envs e).areas (pre ++ i :: post)).map Vma.span =
        ((s.envs e).areas pre ++ s.vma e i :: (s.envs e).areas post).map Vma.span := by
  have hok := h.ok.apart
  rw [Space.areas_append, Space.areas_cons] at hok
  obtain ⟨h₁, h₂, h₃⟩ := List.pairwise_append.1 hok.order
  obtain ⟨h₄, h₅⟩ := List.pairwise_cons.1 h₂
  refine ⟨⟨fun v hv => ?_, List.pairwise_append.2
    ⟨h₁, List.pairwise_cons.2 ⟨h₄, h₅⟩, fun v hv w hw => ?_⟩⟩, ?_⟩
  · rcases List.mem_append.1 hv with hv | hv
    · exact hok.proper v (List.mem_append_left _ hv)
    · rcases List.mem_cons.1 hv with rfl | hv
      · exact h.ordered.proper (by simp)
      · exact hok.proper v (by simp [hv])
  · rcases List.mem_cons.1 hw with rfl | hw
    · exact h₃ v hv ((s.envs e).vmas i).body List.mem_cons_self
    · exact h₃ v hv w (List.mem_cons_of_mem _ hw)
  · rw [Space.areas_append, Space.areas_cons, List.map_append, List.map_append]
    rfl

/-- Before the call the range has the permission of its area. -/
theorem permAt_range (h : Sorted (s.envs e) (pre ++ i :: post) lf) (hcut : Cut (s.vma e i) va size)
    {x p : BitVec 32} (hx : InRange va size x.toNat) :
    PermAt ((s.envs e).areas (pre ++ i :: post)) x p ↔ p = (s.vma e i).perm := by
  obtain ⟨hapart, hspans⟩ := h.around
  have hlow : (s.vma e i).va.toNat ≤ x.toNat := Nat.le_trans hcut.start hx.1
  have hstop : x.toNat < (s.vma e i).stop := Nat.lt_of_lt_of_le hx.2 hcut.inside
  obtain ⟨hb, ha⟩ := @spanAt_beside _ _ _ hapart x.toNat p hlow hstop
  have hspan : SpanAt [(s.vma e i).span] x.toNat p ↔ _ := spanAt_singleton
  rw [permAt_iff h.ok.apart, hspans, List.map_append, List.map_cons, ← List.singleton_append,
    spanAt_append, spanAt_append,
    or_iff_right hb, or_iff_left ha, hspan]
  exact ⟨fun hc => hc.2.2.symm, fun hc => ⟨hlow, hstop, hc.symm⟩⟩

/-- The pages of the range. -/
theorem pageIn_low (hv : (s.vma e i).Fits) (hcut : Cut (s.vma e i) va size) {q : ℕ}
    (hq : PageIn va size q) : q / 1024 < pdx uTop := by
  have hU : uTop.toNat = 4005560320 := rfl
  have hpdx : pdx uTop = 955 := rfl
  have hinside := hcut.inside
  have hlow := hv.low
  have hq := hq.2
  rw [Vma.stop] at hinside
  omega

/-- **After the change** the call has done what it should if the walk came to every page that had
not the permission. -/
theorem Changed.protected_iff (hc : Changed s s' e d va size perm
      (protectedSpans ((s.envs e).areas pre) (s.vma e i) ((s.envs e).areas post) va size perm))
    (h : Sorted (s.envs e) (pre ++ i :: post) lf) (hcut : Cut (s.vma e i) va size)
    (hd : s.pgdir e = some d) (hperm : UserPerm perm)
    (hsmall : ∀ q, PageIn va size q → isHuge (s.mm.word d (q / 1024)) = false) :
    Protected s s' e (pre ++ i :: post) va size perm ↔
      ∀ q, PageIn va size q → ∀ w b, s.mm.leaf d q = some (w, b) → isPresent w = true →
        s.mm.Comes d (va.toNat / 4096) q ∨ HasPerm perm w b := by
  obtain ⟨hpg, hpages, la', lf', hord, hperms⟩ := hc
  obtain ⟨hapart, hspans⟩ := h.around
  have hfits : (s.vma e i).Fits := h.fits (by simp)
  have hcp := hcut.page
  have hcount : va.toNat / 4096 + size.toNat / 4096 = (va.toNat + size.toNat) / 4096 := by omega
  have hwalked : ∀ q, q ∈ s.mm.walked d (size.toNat / 4096) (va.toNat / 4096) ↔
      PageIn va size q ∧ s.mm.Comes d (va.toNat / 4096) q ∧ s.mm.Mapped d q := by
    intro q
    rw [Mm.mem_walked, hcount, PageIn, and_assoc]
  constructor
  · intro hspec q hq w b hw hP
    refine or_iff_not_imp_left.2 fun hcomes => ?_
    have hsame :=
      hpages.others q (pageIn_low hfits hcut hq) fun hmem => hcomes ((hwalked q).1 hmem).2.1
    exact hspec.range d hd q hq w b (hsame.trans hw) hP
  · intro hcond
    refine ⟨⟨la', lf', hord.lists, fun x p => ⟨fun hx => ?_, fun hx => ?_⟩⟩, hpg,
      fun d' hd' q hq w b hw hP => ?_, fun d' hd' q hlow hq => ?_⟩
    · exact (hperms x p).trans (protectedSpans_inside hapart hcut hx.1 hx.2)
    · rw [hperms, permAt_iff h.ok.apart, hspans]
      refine protectedSpans_outside hcut ?_
      rw [InRange] at hx
      omega
    · obtain rfl : d = d' := Option.some.inj (hd.symm.trans hd')
      by_cases hmem : q ∈ s.mm.walked d (size.toNat / 4096) (va.toNat / 4096)
      · obtain ⟨-, -, w₀, b₀, hw₀, -⟩ := (hwalked q).1 hmem
        have hsmall := hsmall q hq
        rw [(Mm.leaf_eq_some hw₀).2.1] at hsmall
        subst hsmall
        rw [hpages.written q hmem w₀ false hw₀] at hw
        obtain ⟨rfl, rfl⟩ := Prod.mk.inj (Option.some.inj hw)
        exact hasPerm_renew hperm w₀
      · rw [hpages.others q (pageIn_low hfits hcut hq) hmem] at hw
        exact (hcond q hq w b hw hP).resolve_left fun hcomes =>
          hmem ((hwalked q).2 ⟨hq, hcomes, w, b, hw, hP⟩)
    · obtain rfl : d = d' := Option.some.inj (hd.symm.trans hd')
      exact hpages.others q hlow fun hmem => hq ((hwalked q).1 hmem).1

/-- Something has changed. -/
theorem Changed.not_asBefore (hc : Changed s s' e d va size perm
      (protectedSpans ((s.envs e).areas pre) (s.vma e i) ((s.envs e).areas post) va size perm))
    (h : Sorted (s.envs e) (pre ++ i :: post) lf) (hcut : Cut (s.vma e i) va size)
    (hne : (s.vma e i).perm ≠ perm) :
    ¬ AsBefore s s' e (pre ++ i :: post) := by
  rintro ⟨⟨la', lf', hinv, hsame⟩, -, -⟩
  obtain ⟨-, -, la₁, lf₁, hord₁, hperms⟩ := hc
  obtain rfl : la' = la₁ := hinv.alloc.unique hord₁.lists.alloc
  have hpos := hcut.pos
  have hx : InRange va size va.toNat := ⟨Nat.le_refl _, by omega⟩
  have hnew : PermAt ((s'.envs e).areas la') va perm :=
    (hperms va perm).2 ((protectedSpans_inside h.around.1 hcut hx.1 hx.2).2 rfl)
  exact hne ((permAt_range h hcut hx).1 ((hsame va perm).1 hnew)).symm

/-- **The shortcut.** -/
theorem protectVm_same (h : Sorted (s.envs e) (pre ++ i :: post) lf)
    (hcut : Cut (s.vma e i) va size) (heq : (s.vma e i).perm = perm) :
    protectVm s e va size perm = .ok (1, s) := by
  unfold protectVm
  rw [h.ordered.lookup (hcut.covers (h.fits (by simp)))]
  change (if (s.vma e i).perm = perm then _ else _) = _
  rw [if_pos heq]
  rfl

/-- An area of 4 MB pages is not split. -/
theorem protectVm_huge (h : Sorted (s.envs e) (pre ++ i :: post) lf)
    (hcut : Cut (s.vma e i) va size) (hne : (s.vma e i).perm ≠ perm)
    (hhps : (s.vma e i).hps = true) :
    Ends (fun _ => True) (fun r => r = (0, s)) (protectVm s e va size perm) := by
  unfold protectVm vmaSplitLookup
  rw [h.ordered.lookup (hcut.covers (h.fits (by simp)))]
  change Ends _ _ (if _ then _ else _)
  rw [if_neg hne, ends_bind]
  change Ends _ _ (if _ then _ else _)
  refine ends_ite (fun _ => True.intro) fun _ => ?_
  rw [if_pos hhps]
  exact rfl

end

/-- **When `sys_vma_protect` is complete and atomic.** If the area has the permission already, so
must have the entries of the range. If not, nothing may be left to merge, unless the free
descriptors have been used up, and each present page of the range must be one that the walk comes
to, or have the permission already. An area that is not marked has no 4 MB pages. -/
theorem protect_exact_iff (s s' : KState) (cur i d : ℕ) (pre post lf : List ℕ)
    (va size perm a : BitVec 32)
    (h : Sorted (s.vm.envs cur) (pre ++ i :: post) lf) (henv : s.held .env = false)
    (hp : s.held .pagealloc = false)
    (hd : s.vm.pgdir cur = some d) (ht : TlbTables s.vm.mm d) (hcut : Cut (s.vm.vma cur i) va size)
    (hanon : (s.vm.vma cur i).type = .anon) (hperm : UserPerm perm)
    (hsmall : (s.vm.vma cur i).hps = false → ∀ q, PageIn va size q →
      isHuge (s.vm.mm.word d (q / 1024)) = false)
    (hrun : Kern.sysVmaProtect cur va size perm s = .ok (a, s')) :
    ((a = 1 → Protected s.vm s'.vm cur (pre ++ i :: post) va size perm) ∧
      (a = 0 → AsBefore s.vm s'.vm cur (pre ++ i :: post))) ↔
      ((s.vm.vma cur i).perm = perm → ∀ q, PageIn va size q →
        ∀ w b, s.vm.mm.leaf d q = some (w, b) → isPresent w = true →
        HasPerm perm w b) ∧
      ((s.vm.vma cur i).perm ≠ perm → (s.vm.vma cur i).hps = false →
        (NoJoin (protectedSpans ((s.vm.envs cur).areas pre) (s.vm.vma cur i)
          ((s.vm.envs cur).areas post) va size perm) ∨
          lf.length = ((s.vm.vma cur i).part (s.vm.vma cur i).va.toNat va.toNat).length +
            ((s.vm.vma cur i).part (va.toNat + size.toNat) (s.vm.vma cur i).stop).length) ∧
        ∀ q, PageIn va size q → ∀ w b, s.vm.mm.leaf d q = some (w, b) → isPresent w = true →
          s.vm.mm.Comes d (va.toNat / 4096) q ∨ HasPerm perm w b) := by
  obtain ⟨vm, hvm, hs'⟩ : ∃ vm, protectVm s.vm cur va size perm = .ok (a, vm) ∧ s'.vm = vm := by
    rw [Kern.sysVmaProtect_eq henv hp] at hrun
    cases hvm : protectVm s.vm cur va size perm with
    | error c =>
        rw [hvm] at hrun
        exact nomatch hrun
    | ok r =>
        obtain ⟨a', vm⟩ := r
        rw [hvm] at hrun
        obtain ⟨rfl, rfl⟩ := Prod.mk.inj (Except.ok.inj hrun)
        exact ⟨vm, rfl, rfl⟩
  rw [hs']
  by_cases heq : (s.vm.vma cur i).perm = perm
  · obtain ⟨rfl, rfl⟩ := Prod.mk.inj (Except.ok.inj ((protectVm_same h hcut heq).symm.trans hvm))
    constructor
    · intro hspec
      exact ⟨fun _ q hq w b hw hP => (hspec.1 rfl).range d hd q hq w b hw hP,
        fun hne => absurd heq hne⟩
    · rintro ⟨hflags, -⟩
      refine ⟨fun _ => ⟨⟨_, _, h.lists, fun x p => ⟨fun hx => ?_, fun _ => Iff.rfl⟩⟩, rfl,
        fun d' hd' => ?_, fun _ _ _ _ _ => rfl⟩,
        fun hc => absurd hc (by decide)⟩
      · rw [permAt_range h hcut hx, heq]
      · obtain rfl : d = d' := Option.some.inj (hd.symm.trans hd')
        exact hflags heq
  · cases hhps : (s.vm.vma cur i).hps with
    | true =>
        obtain ⟨rfl, rfl⟩ := Prod.mk.inj ((protectVm_huge h hcut heq hhps).of_ok hvm)
        exact ⟨fun _ => ⟨fun hc => absurd hc heq, fun _ hc => nomatch hc⟩,
          fun _ => ⟨fun hc => absurd hc (by decide), fun _ => AsBefore.refl h.lists⟩⟩
    | false =>
        obtain ⟨ha, hchanged⟩ := (protectVm_changed h hcut hanon hhps heq hd ht hperm.small
          fun q hle hlt => hsmall hhps q ⟨hle, hlt⟩).of_ok hvm
        have hiff := hchanged.protected_iff h hcut hd hperm (hsmall hhps)
        have hno := hchanged.not_asBefore h hcut heq
        have ha : a = _ := ha
        constructor
        · intro hspec
          refine ⟨fun hc => absurd hc heq, fun _ _ => ?_⟩
          split at ha
          · rename_i hgood
            exact ⟨hgood, hiff.1 (hspec.1 ha)⟩
          · exact absurd (hspec.2 ha) hno
        · rintro ⟨-, hcond⟩
          obtain ⟨hgood, hflags⟩ := hcond heq rfl
          rw [if_pos hgood] at ha
          exact ⟨fun _ => hiff.2 hflags, fun hc => absurd (hc.symm.trans ha) (by decide)⟩

/-- A call on the machine with one page table. -/
theorem ofTable_protects {ptes : ℕ → BitVec 32} {as : List Vma} {va size perm a : BitVec 32}
    (h : returned (protectVm (.ofTable ptes as) 0 va size perm) = some a) :
    ∃ vm, protectVm (.ofTable ptes as) 0 va size perm = .ok (a, vm) ∧
      Kern.sysVmaProtect 0 va size perm (.ofVm (.ofTable ptes as)) = .ok (a, .ofVm vm) := by
  obtain ⟨vm, hvm⟩ := returned_eq h
  refine ⟨vm, hvm, ?_⟩
  rw [Kern.sysVmaProtect_eq rfl rfl]
  change KState.after _ _ (protectVm (.ofTable ptes as) 0 va size perm) = _
  rw [hvm]
  rfl

theorem ofTable_small {ptes : ℕ → BitVec 32} {as : List Vma} {va size : BitVec 32}
    (h : (va.toNat + size.toNat) / 4096 ≤ 1024) (q : ℕ) (hq : PageIn va size q) :
    isHuge ((Vm.ofTable ptes as).mm.word 1 (q / 1024)) = false := by
  have hq := hq.2
  have hzero : q / 1024 = 0 := by omega
  rw [hzero, ofTable_word]
  change isHuge 0x2007 = false
  decide

/-- The first of two pages becomes read-only. -/
theorem protect_exact_iff_first :
    ∃ s', Kern.sysVmaProtect 0 0x1000 0x1000 pteU (.ofVm (.ofTable presentPtes
    [userArea 0x1000 0x2000])) = .ok (1, s') ∧ Protected (.ofTable presentPtes [userArea 0x1000
      0x2000]) s'.vm 0 [0] 0x1000 0x1000 pteU := by
  obtain ⟨vm, -, hrun⟩ :=
    @ofTable_protects presentPtes [userArea 0x1000 0x2000] 0x1000 0x1000 pteU 1 (by decide +kernel)
  refine ⟨_, hrun, ((protect_exact_iff (.ofVm (.ofTable presentPtes [userArea 0x1000 0x2000])) _ 0 0
    1 [] [] _ 0x1000 0x1000 pteU 1
    (@ofAreas_sorted [userArea 0x1000 0x2000] (by decide) (by decide) (some 1) 8) rfl rfl rfl
      ofTable_tables
    ⟨by decide, by decide, by decide, by decide⟩ rfl (Or.inl rfl)
      (fun _ => ofTable_small (by decide)) hrun).2
    ⟨fun heq => absurd heq (by decide), fun _ _ =>
      ⟨Or.inl (by decide), fun q hq w b hw hP => Or.inl fun p hp hpq => ?_⟩⟩).1 rfl⟩
  have h1 : 1 ≤ p := hp
  have h2 : q < 2 := hq.2
  omega

/-- An area that the program may only read. -/
def readArea (va len : BitVec 32) : Vma := { userArea va len with perm := pteU }

/-- **The call returns 0 although it has changed the permission**: the area in front has the same
one, and merging fails. -/
theorem protect_fails_late :
    (∃ lf, Sorted ((Vm.ofTable presentPtes [readArea 0x1000 0x1000, userArea 0x2000 0x1000]).envs 0)
      ([0] ++ 1 :: []) lf) ∧
    TlbTables (Vm.ofTable presentPtes [readArea 0x1000 0x1000, userArea 0x2000 0x1000]).mm 1 ∧
    Cut ((Vm.ofTable presentPtes [readArea 0x1000 0x1000, userArea 0x2000 0x1000]).vma 0 1)
      0x2000 0x1000 ∧
    ∃ s', Kern.sysVmaProtect 0 0x2000 0x1000 pteU (.ofVm
      (.ofTable presentPtes [readArea 0x1000 0x1000, userArea 0x2000 0x1000])) = .ok (0, s') ∧
      ¬ AsBefore (.ofTable presentPtes [readArea 0x1000 0x1000, userArea 0x2000 0x1000]) s'.vm 0
        [0, 1] := by
  have hsorted := @ofAreas_sorted [readArea 0x1000 0x1000, userArea 0x2000
    0x1000] (by decide) (by decide) (some 1) 8
  have hcut : Cut ((Vm.ofTable presentPtes [readArea 0x1000 0x1000, userArea 0x2000 0x1000]).vma 0
      1) 0x2000 0x1000 :=
    ⟨by decide, by decide, by decide, by decide⟩
  obtain ⟨vm, hvm, hrun⟩ := @ofTable_protects presentPtes
    [readArea 0x1000 0x1000, userArea 0x2000 0x1000] 0x2000 0x1000 pteU 0
    (by decide +kernel)
  refine ⟨⟨_, hsorted⟩, ofTable_tables, hcut, _, hrun, ?_⟩
  have hchanged := (@protectVm_changed (.ofTable presentPtes
    [readArea 0x1000 0x1000, userArea 0x2000 0x1000]) 0 1 1 [0] [] _ 0x2000
    0x1000 pteU hsorted hcut rfl rfl (by decide) rfl ofTable_tables (by decide)
    fun q hle hlt => ofTable_small (by decide) q ⟨hle, hlt⟩).of_ok hvm
  exact hchanged.2.not_asBefore hsorted hcut (by decide)

end Jos
