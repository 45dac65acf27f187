/-
**Where areas of huge pages come from.**

`hps` is set by `sys_vma_create` and cleared by `vma_proc_init`, and by nothing else: a descriptor
that is given back keeps it, and so does an area that takes over the range of its neighbour. A run
of the calls is followed together with what is known of each area: whether all of its range comes
from calls with `MAP_HUGEPAGES`.

Main definitions:

* `Jos.AreaStep` — creation, removal, and the parts of `sys_vma_protect`: the split, and the rounds
  of `vma_list_merge`;
* `Jos.HugeState`, `Jos.AreaStep.origins` — the machine and where its areas come from;
* `Jos.MarksExact` — **an area is marked exactly when all of its range was asked for as huge
  pages**;
* `Jos.Kinds`, `Jos.Marked` — the lists are well formed, every area in use has a kind, and the marks
  are right;
* `Jos.AreaStep.KeepsMarks` — the condition for a step.

Main results:

* `Jos.protect_steps` — `sys_vma_protect` is a split and rounds of the loop;
* `Jos.vmaSplitLookup_gained`, `Jos.mergeRound_gained`, `Jos.createVm_gained` — which descriptors
  come into use in a step;
* `Jos.huge_origin_kept` — **in a run whose steps meet the condition the marks are right**.
-/

import JosKernel.Descriptors

set_option relaxedAutoImplicit false
set_option autoImplicit false

namespace Jos

open LabelledRun LinkedList Outcome

/-! ### The steps -/

/-- **A step of the calls that work on areas**: `sys_vma_create`, `sys_vma_destroy`,
`sys_vma_protect` up to `vma_list_merge`, and one round of the loop of `vma_list_merge`. -/
inductive AreaStep
  | create (size perm flags : BitVec 32)
  | destroy (va size : BitVec 32)
  | split (va size perm : BitVec 32)
  | join (old : ℕ)
  deriving DecidableEq, Repr

/-- `sys_vma_protect(va, size, perm)` up to `vma_list_merge`, which follows if it is `true`. -/
def splitVm (s : Vm) (e : ℕ) (va size perm : BitVec 32) : Except Crash (Bool × Vm) := do
  let v ← vmaLookup (s.envs e) va
  match v with
  | none => pure (false, s)
  | some v =>
      if (s.vma e v).perm = perm then pure (false, s)
      else do
        let (r, s) ← vmaSplitLookup s e va size false
        match r with
        | none => pure (false, s)
        | some v => do
            let s ← vmaChangePerm s e v perm
            pure (true, s)

/-- The two areas that a round of the loop of `vma_list_merge` looks at are joined. -/
def joins (s : Vm) (e old : ℕ) : Bool :=
  ((s.envs e).link old).any fun i => (s.vma e old).mergesWith (s.vma e i)

/-- A round of the loop of `vma_list_merge`, at the area `old`. -/
def mergeRound (s : Vm) (e old : ℕ) : Except Crash (Bool × Vm) :=
  match (s.envs e).link old with
  | none => pure (true, s)
  | some i => if (s.vma e old).mergesWith (s.vma e i) then vmaMerge s e old i else pure (true, s)

namespace AreaStep

/-- The step, without its result. -/
def exec (e : ℕ) (s : Vm) : AreaStep → Except Crash Vm
  | create size perm flags => Prod.snd <$> createVm s e size perm flags
  | destroy va size => Prod.snd <$> destroyVm s e va size
  | split va size perm => Prod.snd <$> splitVm s e va size perm
  | join old => Prod.snd <$> mergeRound s e old

end AreaStep

/-! ### Where the areas come from -/

/-- **A machine, and where the areas of an environment come from**: for the descriptors in use,
whether all of the range comes from calls of `sys_vma_create` with `MAP_HUGEPAGES`. -/
structure HugeState where
  vm : Vm
  huge : ℕ → Bool

/-- The descriptor `i` has come into use. -/
def comesIntoUse (s s' : Vm) (e i : ℕ) : Bool :=
  (s.vma e i).type == .unused && (s'.vma e i).type != .unused

/-- The area that `vma_lookup` finds. -/
def foundArea (s : Vm) (e : ℕ) (va : BitVec 32) : Option ℕ :=
  (vmaLookup (s.envs e) va).toOption.join

namespace AreaStep

/-- **Where the areas come from after a step.** A new area comes from the call that has made it, a
part that is split off from where the area came from, and an area to which the one behind it is
joined from where the two came from. -/
def origins (e : ℕ) (x : HugeState) (s' : Vm) (c : AreaStep) (i : ℕ) : Bool :=
  match c with
  | create _ _ flags => if comesIntoUse x.vm s' e i then flags &&& mapHugepages != 0 else x.huge i
  | destroy va _ | split va _ _ =>
      if comesIntoUse x.vm s' e i then (foundArea x.vm e va).any x.huge else x.huge i
  | join old =>
      if i = old ∧ joins x.vm e old = true then x.huge i && ((x.vm.envs e).link i).any x.huge
        else x.huge i

/-- One step that returns, computed. -/
def next (e : ℕ) (x : HugeState) (c : AreaStep) : Option HugeState :=
  (c.exec e x.vm).toOption.map fun s' => ⟨s', c.origins e x s'⟩

/-- One step that returns. -/
def Step (e : ℕ) (x : HugeState) (c : AreaStep) (y : HugeState) : Prop :=
  c.exec e x.vm = .ok y.vm ∧ y.huge = c.origins e x y.vm

end AreaStep

/-- **An area is marked exactly when all of its range was asked for as huge pages.** -/
def MarksExact (e : ℕ) (x : HugeState) : Prop :=
  ∀ i, Visits (x.vm.envs e).link (x.vm.envs e).allocVmaList i →
    ((x.vm.vma e i).hps = true ↔ x.huge i = true)

/-! ### The condition -/

/-- The number of parts of an area for which `vma_new` takes a descriptor when a range is split
out. -/
def Vma.pieces (v : Vma) (va size : BitVec 32) : ℕ :=
  (if v.va < va ∧ v.va % BitVec.ofNat 32 pgSize = 0 then 1 else 0) +
    if va + size < v.va + v.len ∧ (va + size) % BitVec.ofNat 32 pgSize = 0 then 1 else 0

/-- The descriptors that `vma_split_lookup` takes. -/
def splitTakes (s : Vm) (e : ℕ) (va size : BitVec 32) : ℕ :=
  match foundArea s e va with
  | some v =>
      if (s.vma e v).Splittable ∧ vmaSizeCheck va size (s.vma e v) = true then
        (s.vma e v).pieces va size else 0
  | none => 0

/-- There is a place for a new area. -/
def SpotFound (sp : Space) (size : BitVec 32) : Prop :=
  (vmaFindSpot sp size).toOption.any (fun spot => spot % BitVec.ofNat 32 pgSize == 0) = true

instance (sp : Space) (size : BitVec 32) : Decidable (SpotFound sp size) :=
  inferInstanceAs (Decidable (_ = _))

namespace AreaStep

/-- **How many free descriptors the step takes for areas without huge pages.** `vma_split_lookup` of
`sys_vma_destroy` takes first the one that it has just given back. -/
def takes (s : Vm) (e : ℕ) : AreaStep → ℕ
  | create size _ flags => if flags &&& mapHugepages = 0 ∧ SpotFound (s.envs e) size then 1 else 0
  | destroy va size => splitTakes s e va size - 1
  | split va size perm =>
      if (foundArea s e va).any (fun v => (s.vma e v).perm == perm) then 0
        else splitTakes s e va size
  | join _ => 0

/-- **The condition for a step**: none of the free descriptors that it takes is marked from an
earlier use, and no area of huge pages is joined with one of small pages behind it. -/
structure KeepsMarks (e : ℕ) (x : HugeState) (c : AreaStep) : Prop where
  clear : ∀ lf, Chain (x.vm.envs e).link (x.vm.envs e).freeVmaList lf →
    ∀ i ∈ lf.take (c.takes x.vm e), (x.vm.vma e i).hps = false
  joined : ∀ old, c = join old → Visits (x.vm.envs e).link (x.vm.envs e).allocVmaList old →
    joins x.vm e old = true →
    (x.vm.vma e old).hps = true → ∀ w, (x.vm.envs e).link old = some w → (x.vm.vma e w).hps = true

end AreaStep

/-! ### Descriptors that come into use -/

theorem Vma.hps_of_body {v w : Vma} (h : v.body = w.body) : v.hps = w.hps := by
  rw [← v.body_hps, h, w.body_hps]

theorem Vma.type_of_body {v w : Vma} (h : v.body = w.body) : v.type = w.type := by
  rw [show v.type = v.body.type from rfl, h]
  rfl

/-- The lists are well formed, and every area in use has a kind. -/
structure Kinds (sp : Space) (la lf : List ℕ) : Prop extends VmaInv sp la lf where
  kind : ∀ i ∈ la, (sp.vmas i).type ≠ .unused

/-- `hps` is not written. -/
def SameHps (sp sp' : Space) : Prop := ∀ i, (sp'.vmas i).hps = (sp.vmas i).hps

theorem SameHps.trans {sp sp' sp'' : Space} (h : SameHps sp sp') (h' : SameHps sp' sp'') :
    SameHps sp sp'' :=
  fun i => (h' i).trans (h i)

theorem SameHps.modVma (sp : Space) (i : ℕ) {f : Vma → Vma} (hf : ∀ v, (f v).hps = v.hps) :
    SameHps sp (sp.modVma i f) := by
  intro j
  by_cases hj : j = i
  · subst hj
    rw [Space.modVma_self, hf]
  · rw [Space.modVma_of_ne _ _ hj]

theorem SameHps.of_lists {sp sp' : Space} (h : sp'.lists = sp.lists) : SameHps sp sp' := fun i =>
  congrArg Vma.hps (congrFun (congrArg Prod.fst h) i)

namespace Kinds

variable {sp sp' : Space} {la lf : List ℕ} {i : ℕ}

theorem congr (h : Kinds sp la lf) (hl : sp'.lists = sp.lists) : Kinds sp' la lf := by
  refine ⟨h.toVmaInv.congr hl, fun i hi => ?_⟩
  rw [show sp'.vmas = sp.vmas from congrArg Prod.fst hl]
  exact h.kind i hi

theorem modVma (h : Kinds sp la lf) (hi : i ∉ lf) {f : Vma → Vma}
    (hlink : ∀ v, (f v).vmaLink = v.vmaLink) (htype : ∀ v, (f v).type = v.type) :
    Kinds (sp.modVma i f) la lf := by
  refine ⟨h.toVmaInv.modVma hi hlink, fun j hj => ?_⟩
  by_cases hji : j = i
  · subst hji
    rw [Space.modVma_self, htype]
    exact h.kind j hj
  · rw [Space.modVma_of_ne _ _ hji]
    exact h.kind j hj

end Kinds

/-- **At most `k` free descriptors come into use**, the first ones of the list. -/
def Takes (k : ℕ) (sp sp' : Space) (la lf : List ℕ) : Prop :=
  SameHps sp sp' ∧ ∃ els la' lf', Kinds sp' la' lf' ∧ lf = els ++ lf' ∧ els.length ≤ k ∧
    la'.Perm (els ++ la)

theorem Takes.refl {sp : Space} {la lf : List ℕ} (h : Kinds sp la lf) (k : ℕ) :
    Takes k sp sp la lf :=
  ⟨fun _ => rfl, [], la, lf, h, rfl, Nat.zero_le k, List.Perm.refl _⟩

/-- **`vma_new`** of an area in a row. -/
theorem vmaNew_takes {sp : Space} {la lf : List ℕ} (h : Kinds sp la lf) (va len perm : BitVec 32) :
    Ends (fun _ => True)
      (fun r => SameHps sp r.2 ∧ (r = (.failed, sp) ∨ va % BitVec.ofNat 32 pgSize = 0 ∧
        ∃ el la' lf', r.1 = .made el ∧ lf = el :: lf' ∧
        Kinds r.2 la' lf' ∧ la'.Perm (el :: la)))
      (vmaNew sp va len .anon 0 0 0 perm) := by
  by_cases hpage : va % BitVec.ofNat 32 pgSize = 0
  · have hpage' : va.toNat % 4096 = 0 := mod_pgSize_eq_zero.1 hpage
    cases lf with
    | nil =>
        rw [vmaNew_empty h.toVmaInv, if_neg (by simp), if_neg (not_not_intro hpage)]
        exact True.intro
    | cons el lf =>
        obtain ⟨pre, post, sp', rfl, -, -, hmade, hinv, hat⟩ :=
          @vmaNew_place sp el la lf h.toVmaInv va len .anon 0 0 0 perm (by simp) hpage'
        rw [hmade]
        refine ⟨fun j => ?_, Or.inr ⟨hpage, el, _, lf, rfl, rfl, ⟨hinv, fun j hj => ?_⟩,
          List.perm_middle⟩⟩
        · by_cases hj : j = el
          · subst hj
            have hps : (sp'.vmas j).body.hps = (sp.vmas j).hps := by
              rw [hat.body]
              rfl
            exact hps
          · exact Vma.hps_of_body (hat.others j hj)
        · by_cases hj' : j = el
          · subst hj'
            have htype : (sp'.vmas j).body.type = .anon := by
              rw [hat.body]
              rfl
            exact fun hc => by cases htype.symm.trans hc
          · have hmem : j ∈ pre ++ post := by
              simp only [List.mem_append, List.mem_cons] at hj ⊢
              tauto
            rw [Vma.type_of_body (hat.others j hj')]
            exact h.kind j hmem
  · rw [vmaNew_unaligned (mod_pgSize_eq_zero.not.1 hpage)]
    exact ⟨fun _ => rfl, Or.inl rfl⟩

section

variable {s : Vm} {e : ℕ} {la lf : List ℕ}

/-- Two parts one after the other. -/
theorem Takes.after {k k' : ℕ} {sp sp' sp'' : Space} {els la' lf' : List ℕ}
    (h : Takes k' sp' sp'' la' lf') (hps : SameHps sp sp') (hfree : lf = els ++ lf')
    (hlen : els.length ≤ k) (hperm : la'.Perm (els ++ la)) : Takes (k + k') sp sp'' la lf := by
  obtain ⟨hps', els', la'', lf'', hkinds', rfl, hlen', hperm'⟩ := h
  refine ⟨hps.trans hps', els ++ els', la'', lf'',
    hkinds', by rw [hfree, List.append_assoc], ?_, ?_⟩
  · rw [List.length_append]
    omega
  · refine hperm'.trans ((hperm.append_left els').trans ?_)
    rw [← List.append_assoc]
    exact List.perm_append_comm.append_right la

theorem vmaSplitOff_takes (h : Kinds (s.envs e) la lf) (va len perm : BitVec 32) :
    Ends (fun _ => True) (fun s' => Takes (if va % BitVec.ofNat 32 pgSize = 0 then 1 else 0)
      (s.envs e) (s'.envs e) la lf)
      (vmaSplitOff s e va len .anon perm) := by
  rw [vmaSplitOff, ends_bind, Vm.onSpace, ends_bind]
  refine (vmaNew_takes h va len perm).post ?_
  rintro ⟨r, sp⟩ ⟨hps, hnew⟩
  change Takes _ (s.envs e) ((s.modSpace e fun _ => sp).envs e) la lf
  rw [Vm.modSpace_self]
  rcases hnew with hr | ⟨hpage, el, la', lf', -, rfl, hkinds, hperm⟩
  · obtain ⟨-, rfl⟩ := Prod.mk.inj hr
    exact Takes.refl h _
  · rw [if_pos hpage]
    exact ⟨hps, [el], la', lf', hkinds, rfl, Nat.le_refl 1, hperm⟩

/-- A part is split off, after the area was made shorter, or was taken out. -/
theorem splitOff_takes {vmad : ℕ} {vmaRemove : Bool} (h : Kinds (s.envs e) la lf)
    (hv : vmaRemove = false → vmad ∈ la) (f : Vma → Vma) (hlink : ∀ v, (f v).vmaLink = v.vmaLink)
    (htype : ∀ v, (f v).type = v.type) (hf : ∀ v, (f v).hps = v.hps) (va len perm : BitVec 32) :
    Ends (fun _ => True) (fun s' => Takes (if va % BitVec.ofNat 32 pgSize = 0 then 1 else 0)
      (s.envs e) (s'.envs e) la lf)
      (vmaSplitOff (if vmaRemove then s else s.modSpace e fun sp => sp.modVma vmad f) e va len
        .anon perm) := by
  cases vmaRemove with
  | true => exact vmaSplitOff_takes h va len perm
  | false =>
      have hself : (s.modSpace e fun sp => sp.modVma vmad f).envs e = (s.envs e).modVma vmad f :=
        Vm.modSpace_self ..
      have hmod : Kinds ((s.modSpace e fun sp => sp.modVma vmad f).envs e) la lf := by
        rw [hself]
        exact h.modVma (h.not_mem_free (hv rfl)) hlink htype
      refine (vmaSplitOff_takes hmod va len perm).post ?_
      rintro s' ⟨hps, hrest⟩
      rw [hself] at hps
      exact ⟨(SameHps.modVma _ _ hf).trans hps, hrest⟩

/-- **The parts beside the range** take a descriptor each. -/
theorem vmaSplitParts_takes {vmad : ℕ} {vmaRemove : Bool} {V : Vma} (h : Kinds (s.envs e) la lf)
    (hv : vmaRemove = false → vmad ∈ la) (hanon : V.type = .anon) (va size : BitVec 32) :
    Ends (fun _ => True) (fun s' => Takes (V.pieces va size) (s.envs e) (s'.envs e) la lf)
      (vmaSplitParts s e vmad V va size vmaRemove) := by
  have hright : ∀ (s₁ : Vm) (la₁ lf₁ : List ℕ), Kinds (s₁.envs e) la₁ lf₁ → la ⊆ la₁ →
      Ends (fun _ => True)
      (fun s' => Takes (if va + size < V.va + V.len ∧ (va + size) % BitVec.ofNat 32 pgSize = 0 then
        1 else 0) (s₁.envs e) (s'.envs e)
        la₁ lf₁)
      (if va + size < V.va + V.len then
        vmaSplitOff (if vmaRemove then s₁ else s₁.modSpace e fun sp => sp.modVma vmad fun v =>
          { v with len := v.len - (V.len - (va + size - V.va)) }) e (va + size) (V.len -
            (va + size - V.va)) V.type V.perm
      else pure s₁) := by
    intro s₁ la₁ lf₁ h₁ hsub
    rw [hanon]
    refine ends_ite (fun hlt => ?_) fun _ => Takes.refl h₁ _
    refine (splitOff_takes h₁ (fun hr => hsub (hv hr))
      (fun v => { v with len := v.len - (V.len - (va + size - V.va)) }) (fun _ => rfl)
      (fun _ => rfl) (fun _ => rfl) _ _ _).post fun s' hs' => ?_
    simpa only [hlt, true_and] using hs'
  unfold vmaSplitParts
  refine Ends.ite_bind (ends_ite (fun hlt => ?_) fun hlt => ?_)
  · rw [hanon]
    refine (splitOff_takes h hv (fun v => { v with va := va, len := v.len - (va - V.va) })
      (fun _ => rfl) (fun _ => rfl) (fun _ => rfl)
      _ _ _).post ?_
    rintro s₁ ⟨hps, els, la₁, lf₁, hkinds, hfree, hlen, hperm⟩
    rw [← hanon]
    refine (hright s₁ la₁ lf₁ hkinds fun i hi => hperm.mem_iff.2
      (List.mem_append_right els hi)).post fun s' hs' => ?_
    rw [Vma.pieces]
    simp only [hlt, true_and]
    exact hs'.after hps hfree hlen hperm
  · refine (hright s la lf h (List.Subset.refl la)).post fun s' hs' => ?_
    rw [Vma.pieces, if_neg fun hc => hlt hc.1, Nat.zero_add]
    exact hs'

end

/-! ### What a step does to the areas -/

/-- **The descriptors in use after a step** were in use before, or are among the first `k` free
ones. -/
def Gained (k : ℕ) (sp sp' : Space) (la lf : List ℕ) : Prop :=
  SameHps sp sp' ∧ ∃ la' lf', Kinds sp' la' lf' ∧ ∀ i ∈ la', i ∈ la ∨ i ∈ lf.take k

section

variable {sp sp' sp'' : Space} {la lf la' lf' : List ℕ} {k : ℕ}

theorem Gained.refl (h : Kinds sp la lf) (k : ℕ) : Gained k sp sp la lf :=
  ⟨fun _ => rfl, la, lf, h, fun _ hi => Or.inl hi⟩

theorem Takes.gained (h : Takes k sp sp' la lf) : Gained k sp sp' la lf := by
  obtain ⟨hps, els, la', lf', hkinds, rfl, hlen, hperm⟩ := h
  refine ⟨hps, la', lf', hkinds, fun i hi => ?_⟩
  rcases List.mem_append.1 (hperm.mem_iff.1 hi) with hi | hi
  · refine Or.inr ?_
    rw [List.take_append]
    exact List.mem_append_left _ (by rwa [List.take_of_length_le hlen])
  · exact Or.inl hi

/-- `vma_change_perm`, and whatever else keeps the lists and the marks. -/
theorem Gained.congr (h : Gained k sp sp' la lf) (hl : sp''.lists = sp'.lists) :
    Gained k sp sp'' la lf := by
  obtain ⟨hps, la', lf', hkinds, hmem⟩ := h
  exact ⟨hps.trans (SameHps.of_lists hl), la', lf', hkinds.congr hl, hmem⟩

/-- **The end of `vma_remove_alloced`** takes one descriptor out of use, and keeps its mark. -/
theorem Kinds.unlink {pre post : List ℕ} {x : ℕ} (h : Kinds sp (pre ++ x :: post) lf) :
    SameHps sp (vmaUnlink sp (pre.getLastD x) x) ∧
      Kinds (vmaUnlink sp (pre.getLastD x) x) (pre ++ post) (x :: lf) := by
  have hnd := nodup_split h.alloc.nodup
  refine ⟨fun j => ?_, h.toVmaInv.unlink, fun j hj => ?_⟩
  · by_cases hj : j = x
    · subst hj
      have hx : ∀ prev, ((vmaUnlink sp prev j).vmas j).hps = (sp.vmas j).hps := by
        intro prev
        have hset : ∀ (sp : Space) (p : Option ℕ),
            ((sp.modVma prev fun v => { v with vmaLink := p }).vmas j).hps = (sp.vmas j).hps :=
          fun sp p => SameHps.modVma sp prev (f := fun v => { v with vmaLink := p })
            (fun _ => rfl) j
        unfold vmaUnlink
        dsimp only
        rw [Space.modVma_self]
        refine (hset _ _).trans ?_
        split
        · rfl
        · rfl
      exact hx _
    · exact Vma.hps_of_body (Sorted.unlink_body j hj)
  · have hne : j ≠ x := by
      rintro rfl
      rcases List.mem_append.1 hj with hj | hj
      · exact hnd.1 hj
      · exact hnd.2 hj
    rw [Vma.type_of_body (Sorted.unlink_body j hne)]
    refine h.kind j ?_
    rcases List.mem_append.1 hj with hj | hj
    · exact List.mem_append_left _ hj
    · exact List.mem_append_right _ (List.mem_cons_of_mem _ hj)

end

section

variable {s : Vm} {e : ℕ} {la lf : List ℕ}

/-- **`vma_split_lookup`** takes descriptors for the parts beside the range, `sys_vma_destroy` first
the one that it has given back. -/
theorem vmaSplitLookup_gained (h : Kinds (s.envs e) la lf) (va size : BitVec 32)
    (vmaRemove : Bool) :
    Ends (fun _ => True)
      (fun r => Gained (splitTakes s e va size - if vmaRemove then 1 else 0) (s.envs e)
        (r.2.envs e) la lf ∧
        (vmaRemove = false → ∀ v, r.1 = some v → ∀ la' lf', VmaInv (r.2.envs e) la' lf' → v ∈ la'))
      (vmaSplitLookup s e va size vmaRemove) := by
  obtain ⟨r, hlook, hin⟩ := (vmaLookup_ends h.toVmaInv va).exists_ok fun _ hc => hc
  have hfound : foundArea s e va = r := by
    rw [foundArea, hlook]
    rfl
  have hsame : ∀ n, Gained n (s.envs e) (s.envs e) la lf ∧
      (vmaRemove = false → ∀ v, (none : Option ℕ) = some v → ∀ la' lf', VmaInv (s.envs e) la' lf' →
        v ∈ la') :=
    fun n => ⟨Gained.refl h n, fun _ v hv => by cases hv⟩
  rw [vmaSplitLookup, hlook]
  cases r with
  | none => exact hsame _
  | some v =>
      have hv : v ∈ la := hin v rfl
      refine ends_ite (fun _ => True.intro) fun _ => ends_ite (fun _ => hsame _) fun hps =>
        ends_ite (fun _ => hsame _) fun hanon =>
        ends_ite (fun _ => hsame _) fun hsize => ?_
      have hanon := not_not.1 hanon
      have htakes : splitTakes s e va size = (s.vma e v).pieces va size := by
        rw [splitTakes, hfound]
        exact if_pos ⟨⟨hanon, Bool.eq_false_iff.2 hps⟩, not_not.1 hsize⟩
      rw [htakes]
      cases vmaRemove with
      | false =>
          change Ends _ _ (vmaSplitParts s e v (s.vma e v) va size false >>= _)
          rw [ends_bind]
          refine (vmaSplitParts_takes h (fun _ => hv) hanon va size).post fun s' hs' =>
            ⟨hs'.gained, ?_⟩
          rintro - w ⟨⟩ la' lf' hinv
          obtain ⟨-, els, la₁, lf₁, hkinds, -, -, hperm⟩ := hs'
          rw [hinv.alloc.unique hkinds.alloc]
          exact hperm.mem_iff.2 (List.mem_append_right els hv)
      | true =>
          rw [if_pos rfl, if_pos rfl, ends_bind]
          refine (vmaRemoveAlloced_state h.toVmaInv v true).mono (fun _ _ => True.intro) ?_
          rintro r (⟨hc, -⟩ | ⟨pre, x, post, s₁, rfl, -, hs₁, -, rfl⟩)
          · exact absurd hv hc
          obtain ⟨hps₂, hkinds⟩ := (h.congr (hs₁ e)).unlink
          have hspace : (s₁.modSpace e fun sp => vmaUnlink sp (pre.getLastD x) x).envs e = vmaUnlink
              (s₁.envs e) (pre.getLastD x) x :=
            Vm.modSpace_self ..
          rw [← hspace] at hps₂ hkinds
          change Ends _ _ (vmaSplitParts _ e v (s.vma e v) va size true >>= _)
          rw [ends_bind]
          refine (vmaSplitParts_takes hkinds (fun hc => by cases hc) hanon va size).post
            fun s' hs' => ⟨?_, fun hc => by cases hc⟩
          obtain ⟨hps', la', lf', hkinds', hmem⟩ := hs'.gained
          refine ⟨((SameHps.of_lists (hs₁ e)).trans hps₂).trans hps', la', lf', hkinds', fun i hi =>
            ?_⟩
          rcases hmem i hi with hi | hi
          · refine Or.inl ?_
            rcases List.mem_append.1 hi with hi | hi
            · exact List.mem_append_left _ hi
            · exact List.mem_append_right _ (List.mem_cons_of_mem _ hi)
          · cases hn : (s.vma e v).pieces va size with
            | zero =>
                rw [hn] at hi
                cases hi
            | succ n =>
                rw [hn, List.take_succ_cons] at hi
                rcases List.mem_cons.1 hi with rfl | hi
                · exact Or.inl (by simp)
                · exact Or.inr hi

/-- The part of `sys_vma_protect` before the merging. -/
theorem splitVm_gained (h : Kinds (s.envs e) la lf) (va size perm : BitVec 32) :
    Ends (fun _ => True) (fun r => Gained ((AreaStep.split va size perm).takes s e) (s.envs e)
      (r.2.envs e) la lf)
      (splitVm s e va size perm) := by
  obtain ⟨r, hlook, hin⟩ := (vmaLookup_ends h.toVmaInv va).exists_ok fun _ hc => hc
  have hfound : foundArea s e va = r := by
    rw [foundArea, hlook]
    rfl
  rw [splitVm, hlook]
  cases r with
  | none => exact Gained.refl h _
  | some v =>
      refine ends_ite (fun _ => Gained.refl h _) fun hperm => ?_
      have htakes : (AreaStep.split va size perm).takes s e = splitTakes s e va size := by
        rw [AreaStep.takes, hfound]
        refine if_neg fun hc => hperm ?_
        exact beq_iff_eq.1 hc
      rw [htakes, ends_bind]
      refine (vmaSplitLookup_gained h va size false).post ?_
      rintro ⟨r, s'⟩ ⟨hgained, hmem⟩
      cases r with
      | none => exact hgained
      | some w =>
          obtain ⟨hps, la', lf', hkinds', hmem'⟩ := hgained
          change Ends _ _ (vmaChangePerm s' e w perm >>= _)
          rw [ends_bind]
          have hw : w ∈ la' := hmem rfl w rfl la' lf' hkinds'.toVmaInv
          have hmod : Kinds ((s'.modSpace e fun sp => sp.modVma w fun v =>
              { v with perm := perm }).envs e) la' lf' := by
            rw [Vm.modSpace_self]
            exact hkinds'.modVma (hkinds'.not_mem_free hw) (fun _ => rfl) fun _ => rfl
          have hgained : Gained (splitTakes s e va size) (s.envs e)
              ((s'.modSpace e fun sp => sp.modVma w fun v => { v with perm := perm }).envs e) la
                lf := by
            refine ⟨hps.trans ?_, la', lf', hmod, hmem'⟩
            rw [Vm.modSpace_self]
            exact SameHps.modVma (s'.envs e) w fun _ => rfl
          exact (changePermFrom_ends e _ perm _ 0 _).mono (fun _ _ => True.intro) fun s'' hs'' =>
            hgained.congr (hs'' e)

/-- `sys_vma_destroy`. -/
theorem destroyVm_gained (h : Kinds (s.envs e) la lf) (va size : BitVec 32) :
    Ends (fun _ => True) (fun r => Gained ((AreaStep.destroy va size).takes s e) (s.envs e)
      (r.2.envs e) la lf) (destroyVm s e va size) := by
  obtain ⟨r, hlook, -⟩ := (vmaLookup_ends h.toVmaInv va).exists_ok fun _ hc => hc
  unfold destroyVm
  rw [hlook]
  cases r with
  | none => exact True.intro
  | some v =>
      refine ends_ite (fun _ => Gained.refl h _) fun _ => ?_
      rw [ends_bind]
      exact (vmaSplitLookup_gained h va size true).post fun r hr => hr.1

/-- **A round of the loop of `vma_list_merge`** only takes descriptors out of use. -/
theorem mergeRound_gained (h : Kinds (s.envs e) la lf) (old : ℕ) :
    Ends (fun _ => True) (fun r => Gained 0 (s.envs e) (r.2.envs e) la lf)
      (mergeRound s e old) := by
  unfold mergeRound
  cases hlink : (s.envs e).link old with
  | none => exact Gained.refl h 0
  | some i =>
      refine ends_ite (fun _ => ?_) fun _ => Gained.refl h 0
      have hboth : old ∉ lf ∨ i ∈ lf := by
        by_cases hold : old ∈ lf
        · exact Or.inr (mem_of_link h.free hold hlink)
        · exact Or.inl hold
      unfold vmaMerge
      obtain ⟨s₁, hs₁⟩ : ∃ s₁, (s.modSpace e fun sp => sp.modVma old fun v =>
          { v with len := v.len + (sp.vmas i).len }) = s₁ := ⟨_, rfl⟩
      have hspace : s₁.envs e = (s.envs e).modVma old fun v =>
          { v with len := v.len + ((s.envs e).vmas i).len } := by
        rw [← hs₁, Vm.modSpace_self]
      have hps₁ : SameHps (s.envs e) (s₁.envs e) := by
        rw [hspace]
        exact SameHps.modVma _ _ fun _ => rfl
      have h₁ : Kinds (s₁.envs e) la lf := by
        refine ⟨hs₁ ▸ vmaMerge_lengthen h.toVmaInv hboth, fun j hj => ?_⟩
        rw [hspace]
        by_cases hjo : j = old
        · subst hjo
          rw [Space.modVma_self]
          exact h.kind j hj
        · rw [Space.modVma_of_ne _ _ hjo]
          exact h.kind j hj
      dsimp only
      rw [hs₁]
      refine (vmaRemoveAlloced_state h₁.toVmaInv i false).mono (fun _ _ => True.intro) ?_
      rintro r (⟨-, rfl⟩ | ⟨pre, x, post, s₂, rfl, -, -, hs₂, rfl⟩)
      · exact ⟨hps₁, la, lf, h₁, fun j hj => Or.inl hj⟩
      · obtain rfl := hs₂ rfl
        obtain ⟨hps₂, hkinds⟩ := h₁.unlink
        change Gained 0 (s.envs e)
          ((s₂.modSpace e fun sp => vmaUnlink sp (pre.getLastD x) x).envs e) _ _
        rw [Vm.modSpace_self]
        refine ⟨hps₁.trans hps₂, _, _, hkinds, fun j hj => Or.inl ?_⟩
        rcases List.mem_append.1 hj with hj | hj
        · exact List.mem_append_left _ hj
        · exact List.mem_append_right _ (List.mem_cons_of_mem _ hj)

/-- A call of `vma_populate` does not touch the areas. -/
theorem vmaPopulate_envs (va size perm : BitVec 32) :
    Ends (fun _ => True) (fun r => r.2.envs = s.envs) (vmaPopulate s e va size perm false) := by
  rw [vmaPopulate]
  cases (roundUp size (BitVec.ofNat 32 pgSize)).toNat / (pgSize * if false = true then kb else 1)
    with
  | zero => rfl
  | succ n => exact (populateFrom_fails n 0 s).post fun r hr => hr.2

/-- The area `el` has come into use, and is marked exactly when `huge` holds or it was marked
before. -/
structure MadeArea (sp sp' : Space) (el : ℕ) (huge : Prop) (la lf' : List ℕ) : Prop where
  kinds : ∃ la', Kinds sp' la' lf' ∧ la'.Perm (el :: la)
  others : ∀ i, i ≠ el → (sp'.vmas i).hps = (sp.vmas i).hps
  marked : (sp'.vmas el).hps = true ↔ huge ∨ (sp.vmas el).hps = true

/-- **`sys_vma_create`**: nothing has changed, or the first free descriptor has come into use. -/
theorem createVm_gained (h : Kinds (s.envs e) la lf) (size perm flags : BitVec 32) :
    Ends (fun _ => True)
      (fun r => Gained 0 (s.envs e) (r.2.envs e) la lf ∨
        SpotFound (s.envs e) size ∧ ∃ el lf', lf = el :: lf' ∧ MadeArea (s.envs e) (r.2.envs e) el
          (flags &&& mapHugepages ≠ 0) la lf')
      (createVm s e size perm flags) := by
  unfold createVm
  refine ends_ite (fun _ => Or.inl (Gained.refl h 0)) fun _ => ?_
  cases hspot : vmaFindSpot (s.envs e) size with
  | error c => exact True.intro
  | ok spot =>
      change Ends _ _
        ((s.onSpace e fun sp => vmaNew sp spot size .anon 0 0 0 (perm ||| pteU)) >>= _)
      rw [ends_bind, Vm.onSpace, ends_bind]
      refine (vmaNew_takes h spot size (perm ||| pteU)).post ?_
      rintro ⟨new, sp⟩ ⟨hps, hnew⟩
      obtain ⟨s₁, hs₁⟩ : ∃ s₁, (s.modSpace e fun _ => sp) = s₁ := ⟨_, rfl⟩
      have hself : s₁.envs e = sp := by rw [← hs₁, Vm.modSpace_self]
      rcases hnew with hr | ⟨hpage, el, la', lf', hmade, rfl, hkinds, hperm⟩
      · obtain ⟨rfl, rfl⟩ := Prod.mk.inj hr
        refine Or.inl ?_
        change Gained 0 (s.envs e) ((s.modSpace e fun _ => s.envs e).envs e) la lf
        rw [hs₁, hself]
        exact Gained.refl h 0
      obtain rfl : new = .made el := hmade
      change Ends _ _ (createEnd (s.modSpace e fun _ => sp) e el spot size perm flags)
      rw [hs₁, createEnd]
      have hfound : SpotFound (s.envs e) size := by
        rw [SpotFound, hspot]
        exact beq_iff_eq.2 hpage
      have hsmall : ∀ s₂ : Vm, s₂.envs = s₁.envs → ¬ flags &&& mapHugepages ≠ 0 →
          MadeArea (s.envs e) (s₂.envs e) el (flags &&& mapHugepages ≠ 0) la lf' := by
        intro s₂ hs₂ hno
        rw [hs₂, hself]
        refine ⟨⟨la', hkinds, hperm⟩, fun i _ => hps i, ?_⟩
        rw [hps el, or_iff_right hno]
      refine ends_ite (fun hpop => ?_) fun hpop => ends_ite (fun hhuge => ?_) fun hno => ?_
      · rw [ends_bind]
        refine (vmaPopulate_envs spot size perm).post fun r hr => Or.inr ⟨hfound, el, lf', rfl, ?_⟩
        exact hsmall r.2 hr (not_not_intro hpop.2)
      · refine Or.inr ⟨hfound, el, lf', rfl, ?_⟩
        change MadeArea _ ((s₁.modSpace e fun sp => sp.modVma el fun v =>
          { v with hps := true }).envs e) _ _ _ _
        rw [Vm.modSpace_self, hself]
        have hel : el ∈ la' := hperm.mem_iff.2 List.mem_cons_self
        refine ⟨⟨la', hkinds.modVma (hkinds.not_mem_free hel) (fun _ => rfl) fun _ => rfl, hperm⟩,
          fun i hi => ?_, ?_⟩
        · rw [Space.modVma_of_ne _ _ hi]
          exact hps i
        · rw [Space.modVma_self]
          exact iff_of_true rfl (Or.inl hhuge)
      · exact Or.inr ⟨hfound, el, lf', rfl, hsmall s₁ rfl hno⟩

end

/-! ### `sys_vma_protect` -/

/-- The step that the state takes, when it returns. -/
theorem AreaStep.step_of_exec {e : ℕ} {c : AreaStep} {x : HugeState} {s' : Vm}
    (h : c.exec e x.vm = .ok s') :
    c.Step e x ⟨s', c.origins e x s'⟩ := ⟨h, rfl⟩

theorem mergeFrom_succ {s : Vm} {e old i : ℕ} (n : ℕ) (hlink : (s.envs e).link old = some i) :
    mergeFrom e (n + 1) old (some i) s = (do
      let r ← mergeRound s e old
      if r.1 then mergeFrom e n i ((r.2.envs e).link i) r.2 else pure (false, r.2)) := by
  rw [mergeFrom, mergeRound, hlink]
  dsimp only
  by_cases hmerge : (s.vma e old).mergesWith (s.vma e i) = true
  · rw [if_pos hmerge, if_pos hmerge]
    rfl
  · rw [if_neg hmerge, if_neg hmerge]
    rfl

/-- **The loop of `vma_list_merge`** is made of its rounds. -/
theorem mergeFrom_steps {e : ℕ} : ∀ (n old : ℕ) (x : HugeState) {r : Bool} {s' : Vm},
    mergeFrom e n old ((x.vm.envs e).link old) x.vm = .ok (r, s') →
      ∃ tr y, Run (AreaStep.Step e) x tr y ∧ y.vm = s' ∧ ∀ p ∈ tr, ∃ i, p.2 = .join i := by
  intro n
  induction n with
  | zero =>
      intro old x r s' hrun
      cases hlink : (x.vm.envs e).link old with
      | none =>
          rw [hlink] at hrun
          obtain ⟨-, rfl⟩ := Prod.mk.inj (Except.ok.inj hrun)
          exact ⟨[], x, Run.nil x, rfl, by simp⟩
      | some i =>
          rw [hlink] at hrun
          cases hrun
  | succ n ih =>
      intro old x r s' hrun
      cases hlink : (x.vm.envs e).link old with
      | none =>
          rw [hlink] at hrun
          obtain ⟨-, rfl⟩ := Prod.mk.inj (Except.ok.inj hrun)
          exact ⟨[], x, Run.nil x, rfl, by simp⟩
      | some i =>
          rw [hlink, mergeFrom_succ n hlink] at hrun
          obtain ⟨⟨ok, s₁⟩, hround, hrest⟩ := bind_eq_ok.1 hrun
          have hstep : AreaStep.Step e x (.join old) ⟨s₁, AreaStep.origins e x s₁ (.join old)⟩ :=
            AreaStep.step_of_exec (by rw [AreaStep.exec, hround]; rfl)
          cases ok with
          | false =>
              obtain ⟨-, rfl⟩ := Prod.mk.inj (Except.ok.inj hrest)
              refine ⟨_, _, (Run.nil x).snoc hstep, rfl, ?_⟩
              simp
          | true =>
              obtain ⟨tr, y, hy, hvm, hjoins⟩ :=
                ih i ⟨s₁, AreaStep.origins e x s₁ (.join old)⟩ hrest
              refine ⟨_, y, Run.trans ((Run.nil x).snoc hstep) hy, hvm, fun p hp => ?_⟩
              rcases List.mem_append.1 hp with hp | hp
              · rw [List.nil_append, List.mem_singleton] at hp
                exact ⟨old, congrArg Prod.snd hp⟩
              · exact hjoins p hp

/-- **A call of `sys_vma_protect`** is a split, and rounds of the loop. -/
theorem protect_steps {e : ℕ} (x : HugeState) (va size perm : BitVec 32) {r : BitVec 32} {s' : Vm}
    (hrun : protectVm x.vm e va size perm = .ok (r, s')) :
    ∃ tr y, Run (AreaStep.Step e) x ((x, .split va size perm) :: tr) y ∧ y.vm = s' ∧ ∀ p ∈ tr, ∃ i,
      p.2 = .join i := by
  -- what comes before the merging
  have hsplit : ∃ go s₁, splitVm x.vm e va size perm = .ok (go, s₁) ∧ (go = false → s' = s₁) ∧
      (go = true → ∃ ok, vmaListMerge s₁ e = .ok (ok, s')) := by
    unfold protectVm at hrun
    unfold splitVm
    obtain ⟨v, hlook, hrun⟩ := bind_eq_ok.1 hrun
    rw [hlook]
    cases v with
    | none =>
        obtain ⟨-, rfl⟩ := Prod.mk.inj (Except.ok.inj hrun)
        exact ⟨false, x.vm, rfl, fun _ => rfl, fun hc => by cases hc⟩
    | some v =>
        by_cases hperm : (x.vm.vma e v).perm = perm
        · dsimp only at hrun
          rw [if_pos hperm] at hrun
          obtain ⟨-, rfl⟩ := Prod.mk.inj (Except.ok.inj hrun)
          exact ⟨false, x.vm, if_pos hperm, fun _ => rfl, fun hc => by cases hc⟩
        · dsimp only at hrun
          rw [if_neg hperm] at hrun
          obtain ⟨⟨w, s₁⟩, hlookup, hrun⟩ := bind_eq_ok.1 hrun
          cases w with
          | none =>
              obtain ⟨-, rfl⟩ := Prod.mk.inj (Except.ok.inj hrun)
              exact ⟨false, s₁, (if_neg hperm).trans (bind_eq_ok.2 ⟨_, hlookup, rfl⟩), fun _ => rfl,
                fun hc => by cases hc⟩
          | some w =>
              obtain ⟨s₂, hchange, hrun⟩ := bind_eq_ok.1 hrun
              obtain ⟨⟨ok, s₃⟩, hmerge, hrun⟩ := bind_eq_ok.1 hrun
              obtain ⟨-, rfl⟩ := Prod.mk.inj (Except.ok.inj hrun)
              refine ⟨true, s₂, (if_neg hperm).trans (bind_eq_ok.2 ⟨_, hlookup, ?_⟩),
                fun hc => (by cases hc), fun _ => ⟨ok, hmerge⟩⟩
              exact bind_eq_ok.2 ⟨s₂, hchange, rfl⟩
  obtain ⟨go, s₁, hexec, hstop, hgo⟩ := hsplit
  have hstep : AreaStep.Step e x (.split va size perm)
      ⟨s₁, AreaStep.origins e x s₁ (.split va size perm)⟩ :=
    AreaStep.step_of_exec (by rw [AreaStep.exec, hexec]; rfl)
  cases go with
  | false => exact ⟨[], _, (Run.nil x).snoc hstep, (hstop rfl).symm, by simp⟩
  | true =>
      obtain ⟨ok, hmerge⟩ := hgo rfl
      unfold vmaListMerge at hmerge
      cases halloc : (s₁.envs e).allocVmaList with
      | none =>
          rw [halloc] at hmerge
          obtain ⟨-, rfl⟩ := Prod.mk.inj (Except.ok.inj hmerge)
          exact ⟨[], _, (Run.nil x).snoc hstep, rfl, by simp⟩
      | some old =>
          rw [halloc] at hmerge
          obtain ⟨tr, y, hy, hvm, hjoins⟩ := mergeFrom_steps (2 * nVma) old
            ⟨s₁, AreaStep.origins e x s₁ (.split va size perm)⟩ hmerge
          exact ⟨tr, y, Run.trans ((Run.nil x).snoc hstep) hy, hvm, hjoins⟩

/-! ### Runs -/

section

variable {e : ℕ} {x y : HugeState} {la lf : List ℕ} {k : ℕ}

theorem Kinds.comesIntoUse_alloc (h : Kinds (x.vm.envs e) la lf) (s' : Vm) {i : ℕ} (hi : i ∈ la) :
    comesIntoUse x.vm s' e i = false := by
  have hkind : (x.vm.vma e i).type ≠ .unused := h.kind i hi
  rw [comesIntoUse, beq_eq_false_iff_ne.2 hkind, Bool.false_and]

theorem Kinds.comesIntoUse_free {la' lf' : List ℕ} (h : Kinds (x.vm.envs e) la lf)
    (h' : Kinds (y.vm.envs e) la' lf') {i : ℕ} (hi : i ∈ lf) (hi' : i ∈ la') :
    comesIntoUse x.vm y.vm e i = true := by
  have hold : (x.vm.vma e i).type = .unused := (h.clean i hi).type
  have hnew : (y.vm.vma e i).type ≠ .unused := h'.kind i hi'
  rw [comesIntoUse, hold, Bool.and_eq_true, bne_iff_ne]
  exact ⟨rfl, hnew⟩

/-- The marks say the same of the descriptors on the list. -/
theorem marksExact_iff (h : Kinds (x.vm.envs e) la lf) :
    MarksExact e x ↔ ∀ i ∈ la, ((x.vm.vma e i).hps = true ↔ x.huge i = true) :=
  forall_congr' fun _ => imp_congr_left h.alloc.visits_iff

/-- **A step that marks nothing**: the areas it leaves keep their marks, and those that are new are
not marked. -/
theorem Gained.marks (h : Kinds (x.vm.envs e) la lf)
    (hg : Gained k (x.vm.envs e) (y.vm.envs e) la lf) (hx : MarksExact e x)
    (hclear : ∀ i ∈ lf.take k, (x.vm.vma e i).hps = false)
    (hold : ∀ i ∈ la, (x.vm.vma e i).hps = true → y.huge i = x.huge i)
    (hdown : ∀ i ∈ la, y.huge i = true → x.huge i = true)
    (hnew : ∀ i ∈ lf.take k, (∀ la' lf', Kinds (y.vm.envs e) la' lf' → i ∈ la') →
      y.huge i = false) :
    (∃ la' lf', Kinds (y.vm.envs e) la' lf') ∧ MarksExact e y := by
  obtain ⟨hps, la', lf', hkinds, hmem⟩ := hg
  refine ⟨⟨la', lf', hkinds⟩, (marksExact_iff hkinds).2 fun i hi => ?_⟩
  have hsame : (y.vm.vma e i).hps = (x.vm.vma e i).hps := hps i
  rcases hmem i hi with hla | hlf
  · have hiff := (marksExact_iff h).1 hx i hla
    constructor
    · intro hmark
      have hmark : (x.vm.vma e i).hps = true := hsame.symm.trans hmark
      rw [hold i hla hmark]
      exact hiff.1 hmark
    · intro hhuge
      rw [hsame]
      exact hiff.2 (hdown i hla hhuge)
  · rw [hsame, hclear i hlf, hnew i hlf fun la'' lf'' h'' => by rwa [h''.alloc.unique hkinds.alloc]]

/-- Only an area of small pages is split. -/
theorem splitTakes_small (h : Kinds (x.vm.envs e) la lf) (hx : MarksExact e x) {va size : BitVec 32}
    (hpos : 0 < splitTakes x.vm e va size) :
    (foundArea x.vm e va).any x.huge = false := by
  obtain ⟨r, hlook, hin⟩ := (vmaLookup_ends h.toVmaInv va).exists_ok fun _ hc => hc
  have hfound : foundArea x.vm e va = r := by
    rw [foundArea, hlook]
    rfl
  rw [splitTakes, hfound] at hpos
  rw [hfound]
  cases r with
  | none => rfl
  | some v =>
      dsimp only at hpos
      split at hpos
      · rename_i hsplit
        have hiff := (marksExact_iff h).1 hx v (hin v rfl)
        refine Bool.eq_false_iff.2 fun hhuge => ?_
        have hmark : (x.vm.vma e v).hps = true := hiff.2 hhuge
        rw [hsplit.1.2] at hmark
        cases hmark
      · exact absurd hpos (Nat.lt_irrefl 0)

/-- **The parts of an area that is split.** -/
theorem Gained.split_marks (h : Kinds (x.vm.envs e) la lf)
    (hg : Gained k (x.vm.envs e) (y.vm.envs e) la lf) (hx : MarksExact e x)
    (hclear : ∀ i ∈ lf.take k, (x.vm.vma e i).hps = false) {va size : BitVec 32}
    (hk : k ≤ splitTakes x.vm e va size)
    (hhuge : ∀ i, y.huge i = if comesIntoUse x.vm y.vm e i then (foundArea x.vm e va).any x.huge
      else x.huge i) :
    (∃ la' lf', Kinds (y.vm.envs e) la' lf') ∧ MarksExact e y := by
  have hkept : ∀ i ∈ la, y.huge i = x.huge i := by
    intro i hi
    rw [hhuge, h.comesIntoUse_alloc y.vm hi, if_neg Bool.false_ne_true]
  refine hg.marks h hx hclear (fun i hi _ => hkept i hi) (fun i hi => (hkept i hi).symm.trans)
    fun i hi hnew => ?_
  obtain ⟨-, la', lf', hkinds, -⟩ := hg
  have hpos : 0 < k := by
    rcases Nat.eq_zero_or_pos k with rfl | hpos
    · cases hi
    · exact hpos
  rw [hhuge, h.comesIntoUse_free hkinds (List.mem_of_mem_take hi) (hnew la' lf' hkinds), if_pos rfl]
  exact splitTakes_small h hx (Nat.lt_of_lt_of_le hpos hk)

/-- **A step that meets the condition keeps the marks right.** -/
theorem marksExact_step {c : AreaStep} (h : Kinds (x.vm.envs e) la lf) (hx : MarksExact e x)
    (hok : c.KeepsMarks e x) (hst : c.Step e x y) :
    (∃ la' lf', Kinds (y.vm.envs e) la' lf') ∧ MarksExact e y := by
  obtain ⟨hexec, hhuge⟩ := hst
  have hclear := hok.clear lf h.free
  -- the call that the step is made of returns
  have hret : ∀ {α : Type} {f : Except Crash (α × Vm)}, (Prod.snd <$> f) = .ok y.vm →
      ∃ a, f = .ok (a, y.vm) := by
    intro α f hf
    cases f with
    | error c => cases hf
    | ok r => exact ⟨r.1, congrArg Except.ok (Prod.ext rfl (Except.ok.inj hf))⟩
  cases c with
  | create size perm flags =>
      obtain ⟨a, hrun⟩ := hret hexec
      have hkept : ∀ i ∈ la, y.huge i = x.huge i := by
        intro i hi
        rw [hhuge, AreaStep.origins, h.comesIntoUse_alloc y.vm hi, if_neg Bool.false_ne_true]
      rcases (createVm_gained h size perm flags).of_ok hrun
        with hg | ⟨hspot, el, lf', rfl, ⟨la', hkinds, hperm⟩, hothers, hmarked⟩
      · exact hg.marks h hx (fun i hi => by cases hi) (fun i hi _ => hkept i hi)
          (fun i hi => (hkept i hi).symm.trans)
          fun i hi => by cases hi
      refine ⟨⟨la', lf', hkinds⟩, (marksExact_iff hkinds).2 fun i hi => ?_⟩
      by_cases hel : i = el
      · subst hel
        rw [hhuge, AreaStep.origins, h.comesIntoUse_free hkinds List.mem_cons_self hi, if_pos rfl]
        refine hmarked.trans ?_
        rw [bne_iff_ne]
        refine or_iff_left_of_imp fun hmark hsmall => ?_
        have htakes : (AreaStep.create size perm flags).takes x.vm e = 1 := if_pos ⟨hsmall, hspot⟩
        rw [htakes] at hclear
        have hclear : ((x.vm.envs e).vmas i).hps = false := hclear i (by simp)
        rw [hclear] at hmark
        cases hmark
      · have hla : i ∈ la := (List.mem_cons.1 (hperm.mem_iff.1 hi)).resolve_left hel
        have hsame : (y.vm.vma e i).hps = (x.vm.vma e i).hps := hothers i hel
        rw [hsame, hkept i hla]
        exact (marksExact_iff h).1 hx i hla
  | destroy va size =>
      obtain ⟨a, hrun⟩ := hret hexec
      exact ((destroyVm_gained h va size).of_ok hrun).split_marks h hx hclear (Nat.sub_le ..)
        fun i => congrFun hhuge i
  | split va size perm =>
      obtain ⟨a, hrun⟩ := hret hexec
      have hk : (AreaStep.split va size perm).takes x.vm e ≤ splitTakes x.vm e va size := by
        rw [AreaStep.takes]
        split
        · exact Nat.zero_le _
        · exact Nat.le_refl _
      exact ((splitVm_gained h va size perm).of_ok hrun).split_marks h hx hclear hk fun i =>
        congrFun hhuge i
  | join old =>
      obtain ⟨a, hrun⟩ := hret hexec
      refine ((mergeRound_gained h old).of_ok hrun).marks h hx (fun i hi => by cases hi)
        (fun i hi hmark => ?_) (fun i hi hy => ?_)
        fun i hi => by cases hi
      · rw [hhuge, AreaStep.origins]
        split
        · rename_i hjoin
          obtain ⟨rfl, hjoin⟩ := hjoin
          cases hlink : (x.vm.envs e).link i with
          | none =>
              rw [joins, hlink] at hjoin
              cases hjoin
          | some w =>
              have hw := hok.joined i rfl (h.alloc.visits_iff.2 hi) hjoin hmark w hlink
              have hhuge : x.huge w = true :=
                ((marksExact_iff h).1 hx w (mem_of_link h.alloc hi hlink)).1 hw
              rw [Option.any_some, hhuge, Bool.and_true]
        · rfl
      · rw [hhuge, AreaStep.origins] at hy
        split at hy
        · exact (Bool.and_eq_true_iff.1 hy).1
        · exact hy

/-- The lists are well formed, and the marks are right. -/
def Marked (e : ℕ) (x : HugeState) : Prop := (∃ la lf, Kinds (x.vm.envs e) la lf) ∧ MarksExact e x

theorem marked_step (x : HugeState) (c : AreaStep) (y : HugeState) (h : Marked e x)
    (hok : c.KeepsMarks e x) (hst : c.Step e x y) :
    Marked e y := by
  obtain ⟨⟨la, lf, h⟩, hx⟩ := h
  exact marksExact_step h hx hok hst

/-- **In a run whose steps meet the condition the marks are right**: an area is marked exactly when
all of its range was asked for with `MAP_HUGEPAGES`. -/
theorem huge_origin_kept {tr : List (HugeState × AreaStep)} (h : Marked e x)
    (hrun : Run (AreaStep.Step e) x tr y) (hok : Meets (fun x c => c.KeepsMarks e x) tr) :
    MarksExact e y :=
  (hrun.invariant marked_step h hok).2

end

/-! ### A large area before a small one -/

/-- An environment with one area of one page, at `0x800000`. -/
def oneArea : HugeState where
  vm := Vm.ofWords 4 frames_four (fun _ _ => 0) fun _ => Space.ofAreas (some 3)
    [userArea 0x800000 0x1000] 0
  huge _ := false

theorem oneArea_marked : Marked 0 oneArea := by
  have hkinds : Kinds (oneArea.vm.envs 0) [0] (List.range' 1 104) := by
    refine ⟨(@ofAreas_sorted [userArea 0x800000 0x1000] (by decide) (by decide) (some 3) 0).lists,
      fun i hi => ?_⟩
    obtain rfl := List.mem_singleton.1 hi
    decide
  refine ⟨⟨_, _, hkinds⟩, (marksExact_iff hkinds).2 fun i hi => ?_⟩
  obtain rfl := List.mem_singleton.1 hi
  decide

/-- An area of one 4 MB page is created. -/
theorem huge_origin_kept_create :
    ∃ y, (AreaStep.create 0x400000 pteW mapHugepages).Step 0 oneArea y ∧ MarksExact 0 y := by
  obtain ⟨y, hst⟩ : ∃ y, (AreaStep.create 0x400000 pteW mapHugepages).Step 0 oneArea y :=
    ⟨_, AreaStep.step_of_exec rfl⟩
  refine ⟨y, hst, huge_origin_kept oneArea_marked ((Run.nil oneArea).snoc hst) fun p hp => ?_⟩
  obtain rfl := List.mem_singleton.1 hp
  refine ⟨fun lf _ i hi => ?_, fun old hc => by cases hc⟩
  have htakes : (AreaStep.create 0x400000 pteW mapHugepages).takes oneArea.vm 0 = 0 := by decide
  change i ∈ lf.take ((AreaStep.create 0x400000 pteW mapHugepages).takes oneArea.vm 0) at hi
  rw [htakes] at hi
  cases hi

theorem AreaStep.step_of_next {e : ℕ} {x y : HugeState} {c : AreaStep} (h : c.next e x = some y) :
    c.Step e x y := by
  obtain ⟨s', hs', rfl⟩ := Option.map_eq_some_iff.1 h
  cases hrun : c.exec e x.vm with
  | error err =>
      rw [hrun] at hs'
      cases hs'
  | ok s₁ =>
      rw [hrun] at hs'
      obtain rfl := Option.some.inj hs'
      exact ⟨hrun, rfl⟩

/-- Two areas one behind the other, the first of a 4 MB page, and then `sys_vma_protect` of a
third. -/
def joinCalls : List AreaStep :=
  [.create 0x400000 pteW mapHugepages, .create 0x400000 pteW 0,
    .split 0x800000 0x1000 pteU, .join 1]

/-- **An area takes over the small pages behind it**, and stays marked: the second half of it was
asked for without `MAP_HUGEPAGES`. -/
theorem huge_mark_spreads :
    (∃ y tr, Run (AreaStep.Step 0) oneArea tr y ∧ tr.map Prod.snd = joinCalls ∧ ¬ MarksExact 0 y) ∧
      ∃ s₁ s₂ s₃, createVm oneArea.vm 0 0x400000 pteW mapHugepages = .ok (0, s₁) ∧
      createVm s₁ 0 0x400000 pteW 0 = .ok (0x400000, s₂) ∧
        protectVm s₂ 0 0x800000 0x1000 pteU = .ok (0, s₃) ∧ (s₃.envs 0).allocVmaList = some 1 ∧
        (s₃.vma 0 1).va = 0 ∧
        (s₃.vma 0 1).len = 0x800000 ∧ (s₃.vma 0 1).hps = true := by
  refine ⟨?_, _, _, _, rfl, rfl, rfl, rfl, rfl, rfl, rfl⟩
  have hend : ((execAll (AreaStep.next 0) oneArea joinCalls).any fun y =>
      (y.vm.envs 0).allocVmaList == some 1 && (y.vm.vma 0 1).hps && !y.huge 1) = true := by decide
  obtain ⟨y, hy, hbad⟩ := (Option.any_eq_true _ _).1 hend
  obtain ⟨tr, hrun, htr⟩ := run_of_execAll hy
  refine ⟨y, tr, hrun.mono fun _ _ _ => AreaStep.step_of_next, htr, fun hmarks => ?_⟩
  simp only [Bool.and_eq_true, beq_iff_eq, Bool.not_eq_true'] at hbad
  obtain ⟨⟨halloc, hps⟩, hhuge⟩ := hbad
  have hone := (hmarks 1 (by rw [halloc]; exact Visits.here 1)).1 hps
  rw [hhuge] at hone
  cases hone

end Jos
