/-
**When the descriptors run out.**

An environment has 105 descriptors of areas. A call takes them from the free list, and `vma_new`
looks at the first one before it tests whether there is one: where a descriptor is missing the
kernel dereferences `NULL`, instead of failing. No part of an area is dropped, because the kernel
does not get that far.

Main definitions:

* `Jos.HasSpans`, `Jos.HasPerms` — the areas of an environment, up to their order, and the
  permissions at its addresses;
* `Jos.AreaCall` — the calls that take descriptors;
* `Jos.AreaCall.Clean` — the call completes, or fails and leaves the areas as they are;
* `Jos.AreaCall.Enough` — there are enough free descriptors, and nothing else goes wrong with the
  areas;
* `Jos.AreaCall.PagesRun`, `Jos.AreaCall.PagesOk` — the functions that work on pages return.

Main results:

* `Jos.createVm_made_spans`, `Jos.cpyVmasFrom_spans` — new areas;
* `Jos.destroyVm_spans`, `Jos.protectVm_spans` — areas that are split;
* `Jos.call_clean_iff` — **a call is clean if and only if there are enough descriptors** and the
  loops over its pages return.
-/

import JosKernel.CreateSpot
import JosKernel.PagesReturn
import JosKernel.RangeSplit

set_option relaxedAutoImplicit false
set_option autoImplicit false

namespace Jos

open LinkedList Outcome

/-! ### The areas of an environment -/

/-- The areas on a list, by their ends. -/
def Space.spans (sp : Space) (la : List ℕ) : List Span := (sp.areas la).map Vma.span

/-- **The areas in use are those of the list**, in some order. -/
def HasSpans (sp : Space) (ss : List Span) : Prop :=
  ∃ la lf, VmaInv sp la lf ∧ (sp.spans la).Perm ss

/-- The permissions at the addresses are those that `P` says. -/
def HasPerms (sp : Space) (P : BitVec 32 → BitVec 32 → Prop) : Prop :=
  ∃ la lf, VmaInv sp la lf ∧ ∀ a p, SpanAt (sp.spans la) a.toNat p ↔ P a p

theorem HasSpans.refl {sp : Space} {la lf : List ℕ} (h : VmaInv sp la lf) :
    HasSpans sp (sp.spans la) := ⟨la, lf, h, List.Perm.refl _⟩

/-- The length of the list of areas. -/
theorem HasSpans.length_eq {sp : Space} {la lf : List ℕ} {ss : List Span} (h : HasSpans sp ss)
    (hl : VmaInv sp la lf) :
    ss.length = la.length := by
  obtain ⟨la', lf', hl', hperm⟩ := h
  obtain rfl : la' = la := hl'.alloc.unique hl.alloc
  rw [← hperm.length_eq, Space.spans, List.length_map, Space.areas, List.length_map]

/-- Areas that are the same give the same permissions. -/
theorem HasSpans.perms {sp : Space} {ss : List Span} {P : BitVec 32 → BitVec 32 → Prop}
    (h : HasSpans sp ss) (hp : HasPerms sp P) (a p : BitVec 32) : SpanAt ss a.toNat p ↔ P a p := by
  obtain ⟨la, lf, hl, hperm⟩ := h
  obtain ⟨la', lf', hl', hspan⟩ := hp
  obtain rfl : la' = la := hl'.alloc.unique hl.alloc
  rw [← hspan]
  refine exists_congr fun x => and_congr_left fun _ => ?_
  exact hperm.mem_iff.symm

/-! ### A new area -/

section

variable {sp sp' : Space} {el : ℕ} {la lf : List ℕ}

/-- **`vma_new`** adds one area. -/
theorem vmaNew_spans (h : VmaInv sp la (el :: lf)) {va len : BitVec 32} {type : VmaType}
    {src filesize cpyDst perm : BitVec 32} (hsrc : type = .binary → src ≠ 0 ∧ filesize ≠ 0)
    (hpage : va.toNat % 4096 = 0) (hlen : len.toNat % 4096 = 0) :
    ∃ la' sp', vmaNew sp va len type src filesize cpyDst perm = .ok (.made el, sp') ∧
      VmaInv sp' la' lf ∧ el ∈ la' ∧
      (sp'.spans la').Perm (⟨va.toNat, va.toNat + len.toNat, type, perm⟩ :: sp.spans la) := by
  obtain ⟨pre, post, sp', rfl, -, -, hnew, hinv, hat⟩ :=
    @vmaNew_place sp el la lf h va len type src filesize cpyDst perm hsrc hpage
  have hother : ∀ l ⊆ pre ++ post, sp'.areas l = sp.areas l :=
    fun l hl => Space.areas_congr fun j hj => hat.others j (by
    rintro rfl
    exact h.not_mem_free (hl hj) List.mem_cons_self)
  have hspan : ((sp'.vmas el).body).span = ⟨va.toNat, va.toNat + len.toNat, type, perm⟩ := by
    rw [hat.body, newArea, newVma, roundUp_of_page hlen]
    rfl
  refine ⟨_, sp', hnew, hinv, by simp, ?_⟩
  rw [Space.spans, Space.spans, Space.areas_append, Space.areas_cons, Space.areas_append,
    hother pre (by simp), hother post (by simp),
    List.map_append, List.map_cons, List.map_append, hspan]
  exact List.perm_middle

/-- A change that keeps the areas of all descriptors. -/
theorem HasSpans.modVma {ss : List Span} {i : ℕ} {f : Vma → Vma} (hl : VmaInv sp la lf)
    (hi : i ∈ la) (hp : (sp.spans la).Perm ss) (hlink : ∀ v, (f v).vmaLink = v.vmaLink)
    (hspan : ∀ v, (f v).span = v.span) :
    VmaInv (sp.modVma i f) la lf ∧ ((sp.modVma i f).spans la).Perm ss := by
  refine ⟨hl.modVma (hl.not_mem_free hi) hlink, ?_⟩
  have hsame : (sp.modVma i f).spans la = sp.spans la := by
    rw [Space.spans, Space.areas, Space.spans, Space.areas, List.map_map, List.map_map]
    refine List.map_congr_left fun j _ => ?_
    change ((sp.modVma i f).vmas j).span = (sp.vmas j).span
    by_cases hj : j = i
    · rw [hj, Space.modVma_self, hspan]
    · rw [Space.modVma_of_ne _ _ hj]
  rw [hsame]
  exact hp

end

/-! ### `sys_vma_create` -/

section

variable {s : Vm} {e : ℕ} {la lf : List ℕ} {size perm flags spot : BitVec 32}

/-- The place of a new area is the start of a page. -/
theorem vmaFindSpot_page (h : Sorted (s.envs e) la lf)
    (hspot : vmaFindSpot (s.envs e) size = .ok spot) (hne : spot ≠ -1) :
    spot.toNat % 4096 = 0 := by
  cases la with
  | nil =>
      have hnil : (s.envs e).allocVmaList = none := h.lists.alloc
      rw [vmaFindSpot, hnil] at hspot
      cases hspot
  | cons temp la =>
      rw [vmaFindSpot_eq h.lists] at hspot
      have hspot := Except.ok.inj hspot
      split at hspot
      · rw [← hspot]
        rfl
      · cases hgap : seenGap size 0 ((s.envs e).areas (temp :: la)) with
        | none =>
            rw [hgap] at hspot
            exact absurd hspot.symm hne
        | some r =>
            obtain ⟨total, u, w⟩ := r
            rw [hgap, spotOf] at hspot
            split at hspot
            · exact absurd hspot.symm hne
            · obtain ⟨hu, -⟩ := seenGap_areas h.ok hgap
              have hpage := hu.page
              rw [← hspot, hu.toNat_stop]
              omega

/-- The call with `MAP_POPULATE` and small pages. -/
def Populates (flags size : BitVec 32) : Prop :=
  (flags &&& mapPopulate ≠ 0 ∧ flags &&& mapHugepages = 0) ∧ 0 < size.toNat

instance (flags size : BitVec 32) : Decidable (Populates flags size) :=
  inferInstanceAs (Decidable (_ ∧ _))

/-- The call with `MAP_HUGEPAGES` on a size that is not one of 4 MB pages. -/
abbrev HugeMisfit (flags size : BitVec 32) : Prop :=
  flags &&& mapHugepages ≠ 0 ∧ size % BitVec.ofNat 32 (pgSize * kb) ≠ 0

/-- **A call that gets an area**: it returns the address, or it has left an area behind although it
fails. -/
theorem createVm_made_spans {el : ℕ} (h : Sorted (s.envs e) la (el :: lf))
    (hspot : vmaFindSpot (s.envs e) size = .ok spot) (hne : spot ≠ -1)
    (hpage : size.toNat % 4096 = 0) (hhuge : ¬ HugeMisfit flags size) :
    Ends (fun _ => Populates flags size)
      (fun r => (Populates flags size → r.1 = -1) ∧ (¬ Populates flags size → r.1 = spot) ∧
        HasSpans (r.2.envs e) (⟨spot.toNat, spot.toNat + size.toNat, .anon, perm ||| pteU⟩ ::
          (s.envs e).spans la))
      (createVm s e size perm flags) := by
  obtain ⟨la', sp', hnew, hinv, hel, hspans⟩ :=
    @vmaNew_spans (s.envs e) el la lf h.lists spot size .anon 0 0 0 (perm ||| pteU)
    (by simp) (vmaFindSpot_page h hspot hne) hpage
  have hspace : (s.onSpace e fun sp => vmaNew sp spot size .anon 0 0 0 (perm ||| pteU)) =
      .ok (.made el, s.modSpace e fun _ => sp') := by
    rw [Vm.onSpace, hnew]
    rfl
  have hself : (s.modSpace e fun _ => sp').envs e = sp' := Vm.modSpace_self ..
  have hmade : HasSpans ((s.modSpace e fun _ => sp').envs e)
      (⟨spot.toNat, spot.toNat + size.toNat, .anon, perm ||| pteU⟩ :: (s.envs e).spans la) := by
    rw [hself]
    exact ⟨la', lf, hinv, hspans⟩
  rw [createVm, if_neg hhuge, hspot]
  change Ends _ _ ((s.onSpace e fun sp => vmaNew sp spot size .anon 0 0 0 (perm ||| pteU)) >>= _)
  rw [hspace]
  change Ends _ _ (createEnd (s.modSpace e fun _ => sp') e el spot size perm flags)
  rw [createEnd]
  refine ends_ite (fun hpop => ?_) fun hpop => ends_ite (fun _ => ?_) fun _ => ?_
  · by_cases hpos : 0 < size.toNat
    · have hlt := size.isLt
      rw [ends_bind]
      refine Ends.mono (vmaPopulate_fails hpos (by omega) (s.modSpace e fun _ => sp'))
        (fun _ _ => ⟨hpop, hpos⟩) fun r hr => ?_
      refine ⟨fun _ => ?_, fun hc => absurd ⟨hpop, hpos⟩ hc, ?_⟩
      · change (if r.1 then spot else -1) = -1
        rw [hr.1]
        rfl
      · change HasSpans (r.2.envs e) _
        rw [hr.2]
        exact hmade
    · -- there is no page
      obtain rfl : size = 0 := BitVec.eq_of_toNat_eq (Nat.eq_zero_of_not_pos hpos)
      exact ⟨fun hc => absurd hc.2 hpos, fun _ => rfl, hmade⟩
  · refine ⟨fun hc => absurd hc.1 hpop, fun _ => rfl, ?_⟩
    change HasSpans (((s.modSpace e fun _ => sp').modSpace e fun sp => sp.modVma el fun v =>
      { v with hps := true }).envs e) _
    rw [Vm.modSpace_self, hself]
    obtain ⟨hinv', hspans'⟩ := HasSpans.modVma hinv hel hspans
      (f := fun v => { v with hps := true }) (fun _ => rfl) fun _ => rfl
    exact ⟨la', lf, hinv', hspans'⟩
  · exact ⟨fun hc => absurd hc.1 hpop, fun _ => rfl, hmade⟩

/-- A call that does not come to `vma_new`, or finds no place, changes nothing. -/
theorem createVm_none (h : HugeMisfit flags size ∨ vmaFindSpot (s.envs e) size = .ok (-1)) :
    createVm s e size perm flags = .ok (-1, s) := by
  rw [createVm]
  by_cases hhuge : HugeMisfit flags size
  · rw [if_pos hhuge]
    rfl
  · rw [if_neg hhuge, h.resolve_left hhuge]
    have hfail : vmaNew (s.envs e) (-1) size .anon 0 0 0 (perm ||| pteU) =
        .ok (.failed, s.envs e) := vmaNew_unaligned (by decide) ..
    have hspace : (s.onSpace e fun sp => vmaNew sp (-1) size .anon 0 0 0 (perm ||| pteU)) =
        .ok (.failed, s) := by
      rw [Vm.onSpace, hfail]
      change Except.ok (NewVma.failed, s.modSpace e fun _ => s.envs e) = _
      rw [Vm.modSpace_eq_self rfl]
    exact bind_eq_ok.2 ⟨-1, rfl, bind_eq_ok.2 ⟨(.failed, s), hspace, rfl⟩⟩

/-- Without a free descriptor, or without an area, the call dereferences `NULL`. -/
theorem createVm_crashes (h : Sorted (s.envs e) la lf) (hshort : la = [] ∨ lf = [])
    (hhuge : ¬ HugeMisfit flags size) (hspot : vmaFindSpot (s.envs e) size ≠ .ok (-1)) :
    createVm s e size perm flags = .error .nullDeref := by
  rw [createVm, if_neg hhuge]
  cases la with
  | nil =>
      have hnil : (s.envs e).allocVmaList = none := h.lists.alloc
      rw [vmaFindSpot, hnil]
      rfl
  | cons temp la =>
      obtain rfl := hshort.resolve_left fun hc => by cases hc
      rw [vmaFindSpot_eq h.lists] at hspot ⊢
      generalize hfound : (if size < ((s.envs e).vmas temp).va then (0 : BitVec 32)
        else spotOf size (seenGap size 0 ((s.envs e).areas (temp :: la)))) = found at hspot ⊢
      have hpage : ¬ found % BitVec.ofNat 32 pgSize ≠ 0 := by
        refine not_not_intro (mod_pgSize_eq_zero.2 ?_)
        exact vmaFindSpot_page h (by rw [vmaFindSpot_eq h.lists, hfound]) fun hc =>
          hspot (by rw [hc])
      have hnew : vmaNew (s.envs e) found size .anon 0 0 0 (perm ||| pteU) = .error .nullDeref := by
        rw [vmaNew_empty h.lists, if_neg (by simp), if_neg hpage]
      change ((s.onSpace e fun sp => vmaNew sp found size .anon 0 0 0 (perm ||| pteU)) >>= _) = _
      rw [Vm.onSpace, hnew]
      rfl

end

/-! ### `env_cpy_vmas` -/

/-- **The loop of `env_cpy_vmas`**: it needs a descriptor of the child for every area. -/
theorem cpyVmasFrom_spans {child parent : ℕ} (hne : parent ≠ child) :
    ∀ (rest : List ℕ) (fuel : ℕ) (cur n : Option ℕ) (s : Vm)
    (lc lf : List ℕ), rest.length ≤ fuel → Chain (s.envs parent).link cur rest →
      VmaInv (s.envs child) lc lf →
    (∀ i ∈ rest, (s.vma parent i).Fits ∧ vmaConsistencyCheck (s.vma parent i)
      (s.vma parent i).type = true) →
    Ends (Short lf rest.length)
      (fun r => r.1 = true ∧ rest.length ≤ lf.length ∧
        HasSpans (r.2.envs child) ((s.envs child).spans lc ++ (s.envs parent).spans rest))
      (cpyVmasFrom child parent fuel cur n s) := by
  intro rest
  induction rest with
  | nil =>
      intro fuel cur n s lc lf _ hchain hinv _
      rw [chain_nil] at hchain
      rw [hchain, cpyVmasFrom]
      refine ⟨rfl, Nat.zero_le _, ?_⟩
      rw [show (s.envs parent).spans [] = [] from rfl, List.append_nil]
      exact HasSpans.refl hinv
  | cons v rest ih =>
      intro fuel cur n s lc lf hfuel hchain hinv hok
      obtain ⟨rfl, hrest⟩ := hchain
      obtain ⟨hfits, hcheck⟩ := hok v List.mem_cons_self
      obtain ⟨fuel, rfl⟩ : ∃ k, fuel = k + 1 := ⟨fuel - 1, by simp at hfuel; omega⟩
      have hsrc : (s.vma parent v).type = .binary → (s.vma parent v).cpySrc ≠ 0 ∧
          (s.vma parent v).srcSz ≠ 0 := by
        intro htype
        simp only [vmaConsistencyCheck, htype] at hcheck
        simp at hcheck
        exact ⟨hcheck.1.2, hcheck.2⟩
      rw [cpyVmasFrom]
      cases lf with
      | nil =>
          have hpage : ¬ (s.vma parent v).va % BitVec.ofNat 32 pgSize ≠ 0 :=
            not_not_intro (mod_pgSize_eq_zero.2 hfits.page.1)
          have hsrc' : ¬ ((s.vma parent v).type = .binary ∧
              ((s.vma parent v).cpySrc = 0 ∨ (s.vma parent v).srcSz = 0)) := by
            rintro ⟨htype, hz⟩
            exact hz.elim (hsrc htype).1 (hsrc htype).2
          rw [Vm.onSpace, vmaNew_empty hinv, if_neg hsrc', if_neg hpage]
          exact ⟨Nat.succ_pos _, rfl⟩
      | cons el lf =>
          obtain ⟨la', sp', hnew, hinv', hel, hspans⟩ :=
            @vmaNew_spans (s.envs child) el lc lf hinv (s.vma parent v).va
            (s.vma parent v).len (s.vma parent v).type (s.vma parent v).cpySrc
              (s.vma parent v).srcSz (s.vma parent v).cpyDst
            (s.vma parent v).perm hsrc hfits.page.1 hfits.page.2
          obtain ⟨hinv₂, hspans₂⟩ :=
            HasSpans.modVma hinv' hel hspans (f := fun w => { w with hps := (s.vma parent v).hps })
            (fun _ => rfl) fun _ => rfl
          rw [Vm.onSpace, hnew]
          obtain ⟨s₂, hs₂⟩ : ∃ s₂, ((s.modSpace child fun _ => sp').modSpace child fun sp =>
            sp.modVma el fun w => { w with hps := (s.vma parent v).hps }) = s₂ := ⟨_, rfl⟩
          have hchild : s₂.envs child = sp'.modVma el fun w =>
              { w with hps := (s.vma parent v).hps } := by
            rw [← hs₂, Vm.modSpace_self, Vm.modSpace_self]
          have hparent : s₂.envs parent = s.envs parent := by
            rw [← hs₂, Vm.modSpace_of_ne _ _ hne, Vm.modSpace_of_ne _ _ hne]
          change Ends _ _ (cpyVmasFrom child parent fuel _ (some el)
            ((s.modSpace child fun _ => sp').modSpace child fun sp =>
            sp.modVma el fun w => { w with hps := (s.vma parent v).hps }))
          rw [hs₂]
          have hlink : (s₂.vma parent v).vmaLink = (s.envs parent).link v := by
            rw [Vm.vma, hparent]
            rfl
          refine Ends.mono (ih fuel _ (some el) s₂ la'
            lf (by simp at hfuel; omega) (by rw [hparent, hlink]; exact hrest)
            (by rw [hchild]; exact hinv₂) fun i hi => ?_) ?_ ?_
          · rw [Vm.vma, hparent]
            exact hok i (List.mem_cons_of_mem _ hi)
          · rintro c ⟨hlt, hc⟩
            exact ⟨Nat.succ_lt_succ hlt, hc⟩
          · rintro r ⟨hr, hle, la'', lf'', hinv'', hperm⟩
            refine ⟨hr, Nat.succ_le_succ hle, la'', lf'', hinv'', hperm.trans ?_⟩
            rw [hchild, hparent]
            exact (hspans₂.append_right _).trans (by
              rw [List.cons_append]
              exact List.perm_middle.symm)

/-! ### Areas that are split -/

/-- The number of parts of the area that remain beside a range. -/
def Vma.parts (v : Vma) (va size : BitVec 32) : ℕ :=
  (v.part v.va.toNat va.toNat).length + (v.part (va.toNat + size.toNat) v.stop).length

section

variable {before after : List Vma} {V : Vma} {va size : BitVec 32}

/-- **Once a range of `V` is gone**, the areas are what is left beside it. -/
theorem spanAt_removed (h : AreasApart (before ++ V :: after)) (hcut : Cut V va size) {a : ℕ}
    {p : BitVec 32} :
    SpanAt (before.map Vma.span ++ (V.part V.va.toNat va.toNat ++ V.part (va.toNat + size.toNat)
      V.stop) ++ after.map Vma.span) a p ↔
      SpanAt ((before ++ V :: after).map Vma.span) a p ∧ ¬ InRange va size a := by
  have hstart := hcut.start
  have hinside := hcut.inside
  rw [spanAt_append, spanAt_append, spanAt_append, spanAt_part, spanAt_part]
  by_cases hr : InRange va size a
  · -- no part has an address of the range
    obtain ⟨hlow, hstop⟩ := hr
    obtain ⟨hb, ha⟩ := @spanAt_beside _ _ _ h a p (by omega) (by omega)
    refine ⟨?_, fun hc => absurd ⟨hlow, hstop⟩ hc.2⟩
    rintro ((hc | ⟨-, hc, -⟩ | ⟨hc, -, -⟩) | hc)
    · exact absurd hc hb
    · omega
    · omega
    · exact absurd hc ha
  · have hV : SpanAt [V.span] a p ↔ V.va.toNat ≤ a ∧ a < V.stop ∧ V.perm = p := spanAt_singleton
    have happ : (before ++ V :: after).map Vma.span =
        before.map Vma.span ++ [V.span] ++ after.map Vma.span := by simp
    rw [and_iff_left hr, happ, spanAt_append, spanAt_append, hV]
    refine or_congr_left (or_congr_right ?_)
    rw [InRange] at hr
    constructor
    · rintro (⟨h₁, h₂, hp⟩ | ⟨h₁, h₂, hp⟩)
      · exact ⟨h₁, by omega, hp⟩
      · exact ⟨by omega, h₂, hp⟩
    · rintro ⟨h₁, h₂, hp⟩
      by_cases hlt : a < va.toNat
      · exact Or.inl ⟨h₁, hlt, hp⟩
      · exact Or.inr ⟨by omega, h₂, hp⟩

end

section

variable {s : Vm} {e i : ℕ} {pre post lf : List ℕ} {va size perm : BitVec 32}

instance (va size : BitVec 32) (a : ℕ) : Decidable (InRange va size a) :=
  inferInstanceAs (Decidable (_ ∧ _))

/-- The areas around `i`, by their ends. -/
theorem Sorted.spans_around (h : Sorted (s.envs e) (pre ++ i :: post) lf) :
    (s.envs e).spans (pre ++ i :: post) = ((s.envs e).areas pre ++ s.vma e i :: (s.envs e).areas
      post).map Vma.span := h.around.2

/-- **`vma_split_lookup` does nothing** with an area of another kind, or with a range that goes
beyond the area. -/
theorem vmaSplitLookup_none (h : Sorted (s.envs e) (pre ++ i :: post) lf)
    (hc : (s.vma e i).covers va = true)
    (hcheck : vmaConsistencyCheck (s.vma e i) (s.vma e i).type = true)
    (hwrap : va.toNat + size.toNat < 2 ^ 32)
    (hno : ¬ ((s.vma e i).Splittable ∧ va.toNat + size.toNat ≤ (s.vma e i).stop))
    (vmaRemove : Bool) :
    vmaSplitLookup s e va size vmaRemove = .ok (none, s) := by
  unfold vmaSplitLookup
  rw [h.ordered.lookup hc]
  change (if ¬ vmaConsistencyCheck (s.vma e i) (s.vma e i).type = true then _ else _) = _
  rw [if_neg (not_not_intro hcheck)]
  by_cases hhps : (s.vma e i).hps = true
  · rw [if_pos hhps]
    rfl
  by_cases hanon : (s.vma e i).type = .anon
  · have hfits : (s.vma e i).Fits := h.fits (by simp)
    have hlong : ¬ va.toNat + size.toNat ≤ (s.vma e i).stop :=
      fun hin => hno ⟨⟨hanon, Bool.eq_false_of_not_eq_true hhps⟩, hin⟩
    have hsize : ¬ vmaSizeCheck va size (s.vma e i) = true := by
      have hlow := ((hfits.proper).covers_iff.1 hc).1
      rw [vmaSizeCheck, Bool.not_eq_true', decide_eq_false_iff_not, not_not, BitVec.lt_def,
        hfits.toNat_stop, BitVec.toNat_add,
        Nat.mod_eq_of_lt hwrap]
      exact ⟨Nat.lt_of_not_le hlong, hlow⟩
    rw [if_neg hhps, if_neg (not_not_intro hanon), if_pos hsize]
    rfl
  · rw [if_neg hhps, if_pos hanon]
    rfl

/-- **`sys_vma_destroy`** of a range of an area: it needs a descriptor for every part that remains
but one. -/
theorem destroyVm_spans (h : Sorted (s.envs e) (pre ++ i :: post) lf)
    (hcut : Cut (s.vma e i) va size) (hsplits : (s.vma e i).Splittable)
    (hcheck : vmaConsistencyCheck (s.vma e i) (s.vma e i).type = true) :
    Ends (fun c => vmaRemovePages s e (s.vma e i).va (s.vma e i).len = .error c ∨
      Short (i :: lf) ((s.vma e i).parts va size) c)
      (fun r => r.1 = 0 ∧ (s.vma e i).parts va size ≤ lf.length + 1 ∧
        HasPerms (r.2.envs e) fun a p =>
        SpanAt ((s.envs e).spans (pre ++ i :: post)) a.toNat p ∧ ¬ InRange va size a.toNat)
      (destroyVm s e va size) := by
  obtain ⟨hanon, hhps⟩ := hsplits
  have hfits : (s.vma e i).Fits := h.fits (by simp)
  unfold destroyVm
  rw [h.ordered.lookup (hcut.covers hfits)]
  change Ends _ _ (if _ then _ else _)
  rw [if_neg (by rw [hhps]; exact fun hc => Bool.false_ne_true hc.1),
    vmaSplitLookup_begin h hcut hcheck, hhps,
    if_neg Bool.false_ne_true, if_neg (not_not_intro hanon), if_pos rfl, bind_assoc]
  cases hpages : vmaRemovePages s e (s.vma e i).va (s.vma e i).len with
  | error c =>
      rw [h.ordered.remove true, if_pos rfl, hpages]
      exact Or.inl rfl
  | ok s₁ =>
      rw [ends_bind]
      refine Ends.mono (splitLookup_remove h hpages hcut hanon) (fun c hc => Or.inr hc) ?_
      rintro s' ⟨new, lf', hlf, hrep, -⟩
      have hother : ∀ l ⊆ pre ++ post, (s'.envs e).areas l = (s.envs e).areas l := fun l hl =>
        Space.areas_congr fun j hj => hrep.others j (hl hj)
      refine ⟨rfl, ?_, pre ++ new ++ post, lf', hrep.sorted.lists, fun a p => ?_⟩
      · have hnew := congrArg List.length hrep.spans
        rw [List.length_map, Space.areas, List.length_map] at hnew
        have hlen := congrArg List.length hlf
        rw [List.length_cons, List.length_append, hnew, List.length_append] at hlen
        rw [Vma.parts]
        omega
      · rw [h.spans_around]
        refine Iff.trans (iff_of_eq ?_) (spanAt_removed h.around.1 hcut)
        change SpanAt ((s'.envs e).spans (pre ++ new ++ post)) a.toNat p = _
        rw [Space.spans, Space.areas_append, Space.areas_append, List.map_append,
          List.map_append, hrep.spans, hother pre (by simp), hother post (by simp)]

/-- **`sys_vma_protect`** of a range of an area: it needs a descriptor for every part that
remains. -/
theorem protectVm_spans (h : Sorted (s.envs e) (pre ++ i :: post) lf)
    (hcut : Cut (s.vma e i) va size) (hsplits : (s.vma e i).Splittable)
    (hcheck : vmaConsistencyCheck (s.vma e i) (s.vma e i).type = true)
    (hne : (s.vma e i).perm ≠ perm) :
    Ends (fun c => Short lf ((s.vma e i).parts va size) c ∨
        ∃ vm, vmaSplitLookup s e va size false = .ok (some i, vm) ∧
          vmaChangePerm vm e i perm = .error c)
      (fun r => (s.vma e i).parts va size ≤ lf.length ∧
        r.1 = (if NoJoin
          (protectedSpans ((s.envs e).areas pre) (s.vma e i) ((s.envs e).areas post) va size perm) ∨
          lf.length = (s.vma e i).parts va size then 1 else 0) ∧
        HasPerms (r.2.envs e) fun a p =>
          if InRange va size a.toNat then p = perm
            else SpanAt ((s.envs e).spans (pre ++ i :: post)) a.toNat p)
      (protectVm s e va size perm) := by
  refine Ends.mono (protectVm_areas h hcut hsplits.1 hsplits.2 hne)
    (fun c hc => hc.resolve_left ?_) ?_
  · rw [hcheck]
    exact fun hc => nomatch hc
  · rintro r ⟨hle, hvalue, ⟨la, lf', hord, hperms⟩, -⟩
    refine ⟨hle, hvalue, la, lf', hord.lists, fun a p => ?_⟩
    rw [Space.spans, ← permAt_iff hord.ok, hperms, h.spans_around]
    dsimp only
    by_cases hr : InRange va size a.toNat
    · rw [if_pos hr]
      exact protectedSpans_inside h.around.1 hcut hr.1 hr.2
    · rw [if_neg hr]
      refine protectedSpans_outside hcut ?_
      rw [InRange] at hr
      omega

end

/-! ### The calls -/

/-- **The calls that take descriptors.** -/
inductive AreaCall
  | create (size perm flags : BitVec 32)
  | destroy (va size : BitVec 32)
  | protect (va size perm : BitVec 32)
  | cpyVmas (child : ℕ)

namespace AreaCall

/-- The arguments: whole pages, and a child that is not the parent. -/
def Aligned (s : KState) (e : ℕ) : AreaCall → Prop
  | create size _ _ => size.toNat % 4096 = 0
  | destroy va size | protect va size _ =>
      (va.toNat % 4096 = 0 ∧ size.toNat % 4096 = 0) ∧ 0 < size.toNat ∧
        va.toNat + size.toNat < 2 ^ 32
  | cpyVmas child => e ≠ child ∧ VmaOk (s.vm.envs child)

/-- **The call does what it should, or returns its failure value and leaves the areas as they
are.** -/
def Clean (s : KState) (e : ℕ) (la : List ℕ) : AreaCall → Prop
  | create size perm flags => ∃ a s', Kern.sysVmaCreate e size perm flags s = .ok (a, s') ∧
      (a = -1 ∧ HasSpans (s'.vm.envs e) ((s.vm.envs e).spans la) ∨
        a ≠ -1 ∧ HasSpans (s'.vm.envs e)
          (⟨a.toNat, a.toNat + size.toNat, .anon, perm ||| pteU⟩ :: (s.vm.envs e).spans la))
  | destroy va size => ∃ a s', Kern.sysVmaDestroy e va size s = .ok (a, s') ∧
      (a = -1 ∧ HasSpans (s'.vm.envs e) ((s.vm.envs e).spans la) ∨
        a = 0 ∧ HasPerms (s'.vm.envs e) fun a p =>
          SpanAt ((s.vm.envs e).spans la) a.toNat p ∧ ¬ InRange va size a.toNat)
  | protect va size perm => ∃ a s', Kern.sysVmaProtect e va size perm s = .ok (a, s') ∧
      (a = 0 ∧ HasSpans (s'.vm.envs e) ((s.vm.envs e).spans la) ∨
        a = 1 ∧ HasPerms (s'.vm.envs e) fun a p =>
          if InRange va size a.toNat then p = perm else SpanAt ((s.vm.envs e).spans la) a.toNat p)
  | cpyVmas child => ∀ lc lf, VmaInv (s.vm.envs child) lc lf →
      ∃ ok vm, envCpyVmas s.vm child e = .ok (ok, vm) ∧
        (ok = false ∧ HasSpans (vm.envs child) ((s.vm.envs child).spans lc) ∨
          ok = true ∧ HasSpans (vm.envs child)
            ((s.vm.envs child).spans lc ++ (s.vm.envs e).spans la))

/-- **There are enough descriptors**, and the call does not fail after it has changed the areas. -/
def Enough (s : KState) (e : ℕ) (la lf : List ℕ) : AreaCall → Prop
  | create size _ flags => (HugeMisfit flags size ∨ vmaFindSpot (s.vm.envs e) size = .ok (-1)) ∨
      la ≠ [] ∧ lf ≠ [] ∧ ¬ Populates flags size
  | destroy va size => ∃ i ∈ la, (s.vm.vma e i).covers va = true ∧
      ((s.vm.vma e i).Splittable ∧ va.toNat + size.toNat ≤ (s.vm.vma e i).stop →
        (s.vm.vma e i).parts va size ≤ lf.length + 1)
  | protect va size perm => ∀ pre i post, la = pre ++ i :: post → (s.vm.vma e i).covers va = true →
      ((s.vm.vma e i).perm = perm → ∀ a p : BitVec 32, InRange va size a.toNat →
        (SpanAt ((s.vm.envs e).spans la) a.toNat p ↔ p = perm)) ∧
      ((s.vm.vma e i).perm ≠ perm → (s.vm.vma e i).Splittable ∧
        va.toNat + size.toNat ≤ (s.vm.vma e i).stop →
        (s.vm.vma e i).parts va size ≤ lf.length ∧
        (NoJoin (protectedSpans ((s.vm.envs e).areas pre) (s.vm.vma e i) ((s.vm.envs e).areas post)
          va size perm) ∨
          lf.length = (s.vm.vma e i).parts va size))
  | cpyVmas child => ∀ lc lf, VmaInv (s.vm.envs child) lc lf → la.length ≤ lf.length

/-- **The functions that work on pages return**, where the call comes to them. -/
def PagesRun (s : KState) (e : ℕ) : AreaCall → Prop
  | destroy va size => ∀ i, vmaLookup (s.vm.envs e) va = .ok (some i) →
      (s.vm.vma e i).Splittable ∧ va.toNat + size.toNat ≤ (s.vm.vma e i).stop →
      ∃ vm, vmaRemovePages s.vm e (s.vm.vma e i).va (s.vm.vma e i).len = .ok vm
  | protect va size perm => ∀ i vm, vmaLookup (s.vm.envs e) va = .ok (some i) →
      (s.vm.vma e i).perm ≠ perm → vmaSplitLookup s.vm e va size false = .ok (some i, vm) →
      ∃ vm', vmaChangePerm vm e i perm = .ok vm'
  | _ => True

/-- **They do so** in an environment whose references are counted, for small pages:
`sys_vma_destroy` if the counter of pages does not come to 0, `sys_vma_protect` if `PTE_P` and
`PTE_PS` are not asked for. -/
def PagesOk (s : KState) (e d : ℕ) (live : List Block) (l : List ℕ) : AreaCall → Prop
  | destroy va _ => FreeReady s.vm e d live l ∧
      ∀ i, vmaLookup (s.vm.envs e) va = .ok (some i) →
        NoHuge s.vm.mm d (vpn (s.vm.vma e i).va) (pageCount (s.vm.vma e i).len) ∧
        ((s.vm.envs e).allocPages = 0 ∨
          (s.vm.mm.removed d (pageCount (s.vm.vma e i).len) (vpn (s.vm.vma e i).va)).length <
            (s.vm.envs e).allocPages.toNat)
  | protect va size perm => FreeReady s.vm e d live l ∧ isPresent perm = false ∧
      isHuge perm = false ∧ NoHuge s.vm.mm d (vpn va) (pageCount size)
  | _ => True

end AreaCall

section

variable {s : KState} {e : ℕ} {la lf : List ℕ}

/-- **`sys_vma_create`.** -/
theorem create_clean_iff {size perm flags : BitVec 32} (h : Sorted (s.vm.envs e) la lf)
    (henv : s.held .env = false) (hp : s.held .pagealloc = false) (hpage : size.toNat % 4096 = 0) :
    AreaCall.Clean s e la (.create size perm flags) ↔
      AreaCall.Enough s e la lf (.create size perm flags) := by
  have heq := @Kern.sysVmaCreate_eq s e size perm flags henv hp
  rw [AreaCall.Clean, AreaCall.Enough, heq]
  by_cases hnone : HugeMisfit flags size ∨ vmaFindSpot (s.vm.envs e) size = .ok (-1)
  · rw [createVm_none hnone]
    exact iff_of_true ⟨_, _, rfl, Or.inl ⟨rfl, HasSpans.refl h.lists⟩⟩ (Or.inl hnone)
  obtain ⟨hhuge, hspot⟩ := not_or.1 hnone
  rw [or_iff_right hnone]
  by_cases hshort : la = [] ∨ lf = []
  · rw [createVm_crashes h hshort hhuge hspot]
    refine iff_of_false ?_ ?_
    · rintro ⟨a, s', hrun, -⟩
      exact nomatch hrun
    · rintro ⟨hla, hlf, -⟩
      exact hshort.elim hla hlf
  obtain ⟨hla, hlf⟩ := not_or.1 hshort
  obtain ⟨temp, la, rfl⟩ := List.exists_cons_of_ne_nil hla
  obtain ⟨el, lf, rfl⟩ := List.exists_cons_of_ne_nil hlf
  have hfound := vmaFindSpot_eq h.lists size
  obtain ⟨spot, hat⟩ : ∃ spot, vmaFindSpot (s.vm.envs e) size = .ok spot := ⟨_, hfound⟩
  have hne : spot ≠ -1 := fun hc => hspot (hat.trans (congrArg _ hc))
  have hmade :=
    @createVm_made_spans s.vm e (temp :: la) lf size perm flags spot el h hat hne hpage hhuge
  rw [and_iff_right hla, and_iff_right hlf]
  constructor
  · rintro ⟨a, s', hrun, hclean⟩ hpop
    cases hvm : createVm s.vm e size perm flags with
    | error c =>
        rw [hvm] at hrun
        exact nomatch hrun
    | ok r =>
        -- the area is left behind
        rw [hvm] at hrun
        obtain ⟨rfl, rfl⟩ := Prod.mk.inj (Except.ok.inj hrun)
        obtain ⟨hfail, -, hspans⟩ := hmade.of_ok hvm
        obtain ⟨-, hsame⟩ := hclean.resolve_right fun hc => hc.1 (hfail hpop)
        obtain ⟨la', lf', hinv, hperm⟩ := hspans
        have hlen := hsame.length_eq hinv
        have hlen' := HasSpans.length_eq ⟨la', lf', hinv, hperm⟩ hinv
        rw [List.length_cons] at hlen'
        omega
  · intro hpop
    obtain ⟨r, hr, -, hvalue, hspans⟩ := hmade.exists_ok fun _ => hpop
    rw [hr]
    have hval : r.1 = spot := hvalue hpop
    exact ⟨r.1, _, rfl, Or.inr ⟨by rw [hval]; exact hne, by rw [hval]; exact hspans⟩⟩

/-- **`sys_vma_destroy`.** -/
theorem destroy_clean_iff {va size : BitVec 32} (h : Sorted (s.vm.envs e) la lf)
    (hcheck : ∀ i ∈ la, vmaConsistencyCheck (s.vm.vma e i) (s.vm.vma e i).type = true)
    (henv : s.held .env = false) (hp : s.held .pagealloc = false)
    (ha : AreaCall.Aligned s e (.destroy va size)) :
    AreaCall.Clean s e la (.destroy va size) ↔
      AreaCall.Enough s e la lf (.destroy va size) ∧ AreaCall.PagesRun s e (.destroy va size) := by
  obtain ⟨hpage, hpos, hwrap⟩ := ha
  have heq := @Kern.sysVmaDestroy_eq s e va size henv hp
  have hcut : ∀ i ∈ la, (s.vm.vma e i).covers va = true →
      va.toNat + size.toNat ≤ (s.vm.vma e i).stop → Cut (s.vm.vma e i) va size := fun i hi hc hin =>
    ⟨hpage, hpos, ((h.fits hi).proper.covers_iff.1 hc).1, hin⟩
  rw [AreaCall.Clean, heq]
  constructor
  · rintro ⟨a, s', hrun, -⟩
    obtain ⟨vm, hvm, -⟩ := KState.after_eq_ok.1 hrun
    -- what is there to split has been split
    have hsplit : ∀ i, vmaLookup (s.vm.envs e) va = .ok (some i) →
        (s.vm.vma e i).Splittable ∧ va.toNat + size.toNat ≤ (s.vm.vma e i).stop →
        a = 0 ∧ (s.vm.vma e i).parts va size ≤ lf.length + 1 := by
      intro i hlook hin
      obtain ⟨hi, hc⟩ := h.lists.found hlook
      obtain ⟨pre, post, rfl⟩ := List.append_of_mem hi
      obtain ⟨hzero, hle, -⟩ :=
        (destroyVm_spans h (hcut i hi hc hin.2) hin.1 (hcheck i hi)).of_ok hvm
      exact ⟨hzero, hle⟩
    refine ⟨?_, fun i hlook hin => ?_⟩
    · obtain ⟨r, hlook, -⟩ := (vmaLookup_ends h.lists va).exists_ok fun _ hc => hc
      cases r with
      | none =>
          unfold destroyVm at hvm
          rw [hlook] at hvm
          exact nomatch hvm
      | some i =>
          obtain ⟨hi, hc⟩ := h.lists.found hlook
          exact ⟨i, hi, hc, fun hin => (hsplit i hlook hin).2⟩
    · obtain ⟨rfl, -⟩ := hsplit i hlook hin
      obtain ⟨s₁, hs₁, -⟩ := destroyVm_removes h.ordered hlook hvm
      exact ⟨s₁, hs₁⟩
  · rintro ⟨⟨i, hi, hc, henough⟩, hpages⟩
    have hlook : vmaLookup (s.vm.envs e) va = .ok (some i) := by
      obtain ⟨pre, post, rfl⟩ := List.append_of_mem hi
      exact h.ordered.lookup hc
    obtain ⟨pre, post, rfl⟩ := List.append_of_mem hi
    by_cases hin : (s.vm.vma e i).Splittable ∧ va.toNat + size.toNat ≤ (s.vm.vma e i).stop
    · have hspans := destroyVm_spans h (hcut i hi hc hin.2) hin.1 (hcheck i hi)
      obtain ⟨r, hr, hzero, -, hperms⟩ := hspans.exists_ok fun c => by
        rintro (hc' | hshort)
        · obtain ⟨vm, hvm⟩ := hpages i hlook hin
          exact nomatch hvm.symm.trans hc'
        · have hlt := hshort.1
          rw [List.length_cons] at hlt
          exact absurd (henough hin) (by omega)
      rw [hr]
      exact ⟨r.1, _, rfl, Or.inr ⟨hzero, hperms⟩⟩
    · have hsame : destroyVm s.vm e va size = .ok (-1, s.vm) := by
        unfold destroyVm
        rw [hlook]
        change (if _ then _ else _) = _
        split
        · rfl
        · rw [vmaSplitLookup_none h hc (hcheck i hi) hwrap hin true]
          rfl
      rw [hsame]
      exact ⟨-1, _, rfl, Or.inl ⟨rfl, HasSpans.refl h.lists⟩⟩

/-- **`sys_vma_protect`.** -/
theorem protect_clean_iff {va size perm : BitVec 32} (h : Sorted (s.vm.envs e) la lf)
    (hcheck : ∀ i ∈ la, vmaConsistencyCheck (s.vm.vma e i) (s.vm.vma e i).type = true)
    (henv : s.held .env = false) (hp : s.held .pagealloc = false)
    (ha : AreaCall.Aligned s e (.protect va size perm)) :
    AreaCall.Clean s e la (.protect va size perm) ↔
      AreaCall.Enough s e la lf (.protect va size perm) ∧
        AreaCall.PagesRun s e (.protect va size perm) := by
  obtain ⟨hpage, hpos, hwrap⟩ := ha
  have heq := @Kern.sysVmaProtect_eq s e va size perm henv hp
  rw [AreaCall.Clean, heq]
  have hcut : ∀ i ∈ la, (s.vm.vma e i).covers va = true →
      va.toNat + size.toNat ≤ (s.vm.vma e i).stop → Cut (s.vm.vma e i) va size := fun i hi hc hin =>
    ⟨hpage, hpos, ((h.fits hi).proper.covers_iff.1 hc).1, hin⟩
  -- the shortcut
  have hsame : ∀ i, vmaLookup (s.vm.envs e) va = .ok (some i) → (s.vm.vma e i).perm = perm →
      protectVm s.vm e va size perm = .ok (1, s.vm) := by
    intro i hlook hperm
    unfold protectVm
    rw [hlook]
    change (if (s.vm.vma e i).perm = perm then _ else _) = _
    rw [if_pos hperm]
    rfl
  constructor
  · rintro ⟨a, s', hrun, hval⟩
    obtain ⟨vm, hvm, rfl⟩ := KState.after_eq_ok.1 hrun
    refine ⟨?_, fun i vm₁ hlook hperm hsplit => ?_⟩
    · rintro pre i post rfl hc
      have hi : i ∈ pre ++ i :: post := by simp
      have hlook : vmaLookup (s.vm.envs e) va = .ok (some i) := h.ordered.lookup hc
      refine ⟨fun hperm a' p hr' => ?_, fun hperm hin => ?_⟩
      · rw [hsame i hlook hperm] at hvm
        obtain ⟨rfl, rfl⟩ := Prod.mk.inj (Except.ok.inj hvm)
        obtain ⟨-, hperms⟩ :=
          hval.resolve_left fun hc => absurd (show (1 : BitVec 32) = 0 from hc.1) (by decide)
        have hat := (HasSpans.refl h.lists).perms hperms a' p
        rw [if_pos hr'] at hat
        exact hat
      · obtain ⟨hle, hvalue, hperms⟩ :=
          (protectVm_spans h (hcut i hi hc hin.2) hin.1 (hcheck i hi) hperm).of_ok hvm
        refine ⟨hle, by_contra fun hbad => ?_⟩
        rw [if_neg hbad] at hvalue
        -- the permission of the range has changed
        obtain ⟨-, hold⟩ := hval.resolve_right fun hc => absurd (hvalue.symm.trans hc.1) (by decide)
        have hstart : InRange va size va.toNat := ⟨Nat.le_refl _, by omega⟩
        have hnew := hold.perms hperms va perm
        rw [if_pos hstart] at hnew
        have hspan := hnew.2 rfl
        rw [Space.spans, ← permAt_iff h.ok.apart] at hspan
        exact hperm ((permAt_range h (hcut i hi hc hin.2) hstart).1 hspan).symm
    · unfold protectVm at hvm
      rw [hlook] at hvm
      change (if (s.vm.vma e i).perm = perm then _ else _) = _ at hvm
      rw [if_neg hperm, hsplit] at hvm
      change protectEnd vm₁ e i perm = _ at hvm
      rw [protectEnd] at hvm
      obtain ⟨s₂, hchange, -⟩ := bind_eq_ok.1 hvm
      exact ⟨s₂, hchange⟩
  · rintro ⟨henough, hpages⟩
    -- a call that changes nothing
    have hnothing : protectVm s.vm e va size perm = .ok (0, s.vm) →
        ∃ a s', s.after s.held (protectVm s.vm e va size perm) = .ok (a, s') ∧
          (a = 0 ∧ HasSpans (s'.vm.envs e) ((s.vm.envs e).spans la) ∨
            a = 1 ∧ HasPerms (s'.vm.envs e) fun a p =>
              if InRange va size a.toNat then p = perm
                else SpanAt ((s.vm.envs e).spans la) a.toNat p) := by
      intro hvm
      rw [hvm]
      exact ⟨0, _, rfl, Or.inl ⟨rfl, HasSpans.refl h.lists⟩⟩
    obtain ⟨r, hlook, -⟩ := (vmaLookup_ends h.lists va).exists_ok fun _ hc => hc
    cases r with
    | none =>
        refine hnothing ?_
        unfold protectVm
        rw [hlook]
        rfl
    | some i =>
        obtain ⟨hi, hc⟩ := h.lists.found hlook
        obtain ⟨pre, post, rfl⟩ := List.append_of_mem hi
        obtain ⟨hrange, hparts⟩ := henough pre i post rfl hc
        by_cases hperm : (s.vm.vma e i).perm = perm
        · rw [hsame i hlook hperm]
          refine ⟨1, _, rfl, Or.inr ⟨rfl, _, _, h.lists, fun a p => ?_⟩⟩
          dsimp only
          by_cases hr : InRange va size a.toNat
          · rw [if_pos hr]
            exact hrange hperm a p hr
          · rw [if_neg hr]
        by_cases hin : (s.vm.vma e i).Splittable ∧ va.toNat + size.toNat ≤ (s.vm.vma e i).stop
        · obtain ⟨hle, hgood⟩ := hparts hperm hin
          have hspans := protectVm_spans h (hcut i hi hc hin.2) hin.1 (hcheck i hi) hperm
          obtain ⟨r, hr, -, hvalue, hperms⟩ := hspans.exists_ok fun c => by
            rintro (hshort | ⟨vm, hvm, hc'⟩)
            · exact absurd hle (Nat.not_le_of_lt hshort.1)
            · obtain ⟨vm', hvm'⟩ := hpages i vm hlook hperm hvm
              exact nomatch hvm'.symm.trans hc'
          rw [if_pos hgood] at hvalue
          rw [hr]
          exact ⟨r.1, _, rfl, Or.inr ⟨hvalue, hperms⟩⟩
        · refine hnothing ?_
          unfold protectVm
          rw [hlook]
          change (if (s.vm.vma e i).perm = perm then _ else _) = _
          rw [if_neg hperm, vmaSplitLookup_none h hc (hcheck i hi) hwrap hin false]
          rfl

/-- **`env_cpy_vmas`.** -/
theorem cpyVmas_clean_iff {child : ℕ} (h : Sorted (s.vm.envs e) la lf)
    (hcheck : ∀ i ∈ la, vmaConsistencyCheck (s.vm.vma e i) (s.vm.vma e i).type = true)
    (ha : AreaCall.Aligned s e (.cpyVmas child)) :
    AreaCall.Clean s e la (.cpyVmas child) ↔ AreaCall.Enough s e la lf (.cpyVmas child) := by
  have hlen := h.lists.length_eq
  refine forall_congr' fun lc => forall_congr' fun lf' => forall_congr' fun hinv => ?_
  have hloop := cpyVmasFrom_spans ha.1 la nVma (s.vm.envs e).allocVmaList none s.vm lc
    lf' (by omega) h.lists.alloc hinv
    fun i hi => ⟨h.fits hi, hcheck i hi⟩
  constructor
  · rintro ⟨ok, vm, hrun, -⟩
    exact (hloop.of_ok hrun).2.1
  · intro hle
    obtain ⟨r, hr, hok, -, hspans⟩ := hloop.exists_ok fun c hc => Nat.not_lt_of_le hle hc.1
    exact ⟨r.1, r.2, hr, Or.inr ⟨hok, hspans⟩⟩

end

/-- **The functions that work on pages return** in an environment whose references are counted. -/
theorem AreaCall.PagesOk.run {s : KState} {e d : ℕ} {la lf l : List ℕ} {live : List Block}
    {call : AreaCall} (h : Sorted (s.vm.envs e) la lf) (ha : call.Aligned s e)
    (hok : call.PagesOk s e d live l) : call.PagesRun s e := by
  have hU : uTop.toNat = 4005560320 := rfl
  cases call with
  | create size perm flags => exact True.intro
  | cpyVmas child => exact True.intro
  | destroy va size =>
      obtain ⟨hready, hpages⟩ := hok
      intro i hlook _
      obtain ⟨hsmall, hcount⟩ := hpages i hlook
      obtain ⟨hi, -⟩ := h.lists.found hlook
      have hfits := h.fits hi
      exact FreeReady.removes _ 0 s.vm live l hready (hfits.lowPages (Nat.le_refl _)) hsmall
        (pageCount_lt _) hcount
  | protect va size perm =>
      obtain ⟨hready, hP, hH, hsmall⟩ := hok
      intro i vm hlook _ hsplit
      obtain ⟨hi, hc⟩ := h.lists.found hlook
      obtain ⟨-, -, hsize, honly, ⟨hva, hlen⟩, -⟩ := vmaSplitLookup_range h.lists hsplit
      have hfits := h.fits hi
      have hlow := hfits.lowPages ((vmaSizeCheck_bound_iff hfits.proper hc).2 ha.2.2 hsize)
      obtain ⟨hmm, hpg⟩ := (honly.trans (AreasOnly.modVma vm e i fun v =>
        { v with perm := perm })).memory
      rw [← hmm] at hsmall
      have hself : (vm.modSpace e fun sp => sp.modVma i fun v => { v with perm := perm }).vma e i =
          { vm.vma e i with perm := perm } := by
        rw [Vm.vma, Vm.modSpace_self, Space.modVma_self]
        rfl
      obtain ⟨s', hs'⟩ := @FreeReady.changes e d live l va perm s.vm hready hP hH (pageCount size) 0
        (vm.modSpace e fun sp => sp.modVma i fun v => { v with perm := perm })
          ((hpg e).trans hready.dir)
        (by rw [hmm]) (by rw [hmm]; exact fun _ => rfl) (by rw [hmm]; exact fun _ _ _ _ => rfl) hlow
        (by rw [← hmm]; exact hsmall)
      refine ⟨s', ?_⟩
      rw [vmaChangePerm]
      rw [hself]
      change changePermFrom e (vm.vma e i).va perm (pageCount (vm.vma e i).len) 0 _ = _
      rw [hva, hlen, hs']

/-- **A call is clean if and only if there are enough descriptors**, nothing goes wrong once the
areas have been changed, and the functions that work on pages return; they do in an environment
whose references are counted, for small pages. -/
theorem call_clean_iff (s : KState) (e : ℕ) (la lf : List ℕ) (call : AreaCall)
    (h : Sorted (s.vm.envs e) la lf)
    (hcheck : ∀ i ∈ la, vmaConsistencyCheck (s.vm.vma e i) (s.vm.vma e i).type = true)
    (henv : s.held .env = false) (hp : s.held .pagealloc = false) (ha : call.Aligned s e) :
    (call.Clean s e la ↔ call.Enough s e la lf ∧ call.PagesRun s e) ∧
      ∀ d live l, call.PagesOk s e d live l → call.PagesRun s e := by
  refine ⟨?_, fun d live l hok => hok.run h ha⟩
  cases call with
  | create size perm flags =>
      exact (create_clean_iff h henv hp ha).trans (and_iff_left True.intro).symm
  | destroy va size => exact destroy_clean_iff h hcheck henv hp ha
  | protect va size perm => exact protect_clean_iff h hcheck henv hp ha
  | cpyVmas child => exact (cpyVmas_clean_iff h hcheck ha).trans (and_iff_left True.intro).symm

/-- The area with the two pages of the machine. -/
def ownedState : KState := .ofVm (ownedVm [userArea 0x1000 0x2000] 8)

theorem ownedState_sorted : Sorted (ownedState.vm.envs 0) [0] (List.range' 1 104) :=
  @ofAreas_sorted [userArea 0x1000 0x2000] (by decide) (by decide) (some 5) 8

theorem ownedState_small (first n : ℕ) : NoHuge ownedState.vm.mm 5 first n := by
  intro q _ _
  have hword : ownedState.vm.mm.word 5 (q / 1024) = ownedWord 5 (q / 1024) :=
    ownedVm_word 5 (q / 1024)
  rw [hword, ownedWord]
  by_cases hq : q / 1024 = 0
  · rw [if_pos ⟨rfl, hq⟩]
    decide
  · rw [if_neg fun hc => hq hc.2, if_neg (by omega), if_neg (by omega)]
    decide

/-- One of the two pages is given up, or gets another permission. -/
theorem call_clean_iff_two : AreaCall.Clean ownedState 0 [0] (.destroy 0x1000 0x1000) ∧
    AreaCall.Clean ownedState 0 [0] (.protect 0x1000 0x1000 pteU) := by
  have hcheck : ∀ i ∈ [0], vmaConsistencyCheck (ownedState.vm.vma 0 i)
      (ownedState.vm.vma 0 i).type =
      true := by decide
  constructor
  · obtain ⟨hclean, hpages⟩ := call_clean_iff ownedState 0 _ _ (.destroy 0x1000 0x1000)
      ownedState_sorted hcheck rfl rfl ⟨by decide, by decide⟩
    refine hclean.2 ⟨⟨0, by decide, by decide, fun _ => by decide⟩,
      hpages 5 ownedLive [] ⟨ownedVm_ready, fun i hlook => ?_⟩⟩
    obtain rfl : i = 0 := by simpa using (ownedState_sorted.lists.found hlook).1
    refine ⟨ownedState_small _ _, Or.inr ?_⟩
    exact Nat.lt_of_le_of_lt (Mm.length_removed_le _ _ _ _) (by decide)
  · obtain ⟨hclean, hpages⟩ := call_clean_iff ownedState 0 _ _ (.protect 0x1000 0x1000 pteU)
      ownedState_sorted hcheck rfl rfl ⟨by decide, by decide⟩
    refine hclean.2 ⟨fun pre i post hla hc => ?_,
      hpages 5 ownedLive [] ⟨ownedVm_ready, by decide, by decide, ownedState_small _ _⟩⟩
    obtain ⟨rfl, rfl, rfl⟩ : pre = [] ∧ i = 0 ∧ post = [] := by
      cases pre with
      | nil =>
          obtain ⟨rfl, rfl⟩ := List.cons.inj hla
          exact ⟨rfl, rfl, rfl⟩
      | cons p pre => exact absurd (congrArg List.length hla) (by simp)
    exact ⟨fun hperm => absurd hperm (by decide),
      fun _ _ => ⟨by decide, Or.inl (by decide +kernel)⟩⟩

/-- As many areas as there are descriptors. -/
def allAreas : List Vma := (List.range nVma).map fun k =>
    userArea (BitVec.ofNat 32 (0x2000 * (k + 1))) 0x1000

theorem allAreas_sorted : Sorted ((Vm.ofAreas allAreas).envs 0) (List.range' 0 nVma) [] :=
  @ofAreas_sorted allAreas (by decide +kernel) (by decide) none 0

/-- **Without a free descriptor** `vma_new` dereferences `NULL`, and so does `sys_vma_create`. -/
theorem create_crashes : Sorted ((Vm.ofAreas allAreas).envs 0) (List.range' 0 nVma) [] ∧
    AreaCall.Aligned (.ofVm (.ofAreas allAreas)) 0 (.create 0x1000 0 0) ∧
    vmaNew ((Vm.ofAreas allAreas).envs 0) 0x1000 0x1000 .anon 0 0 0 0 = .error .nullDeref ∧
    ¬ AreaCall.Clean (.ofVm (.ofAreas allAreas)) 0 (List.range' 0 nVma) (.create 0x1000 0 0) := by
  refine ⟨allAreas_sorted, (by decide : (0x1000 : BitVec 32).toNat % 4096 = 0), ?_, ?_⟩
  · rw [vmaNew_empty allAreas_sorted.lists, if_neg (by decide), if_neg (by decide)]
  · rintro ⟨a, s', hrun, -⟩
    have hspot : vmaFindSpot ((Vm.ofAreas allAreas).envs 0) 0x1000 ≠ .ok (-1) := by
      rw [@vmaFindSpot_eq ((Vm.ofAreas allAreas).envs 0) (List.range' 1 104)
        [] 0 allAreas_sorted.lists 0x1000]
      exact fun hc => absurd (Except.ok.inj hc) (by decide)
    have hcrash := @createVm_crashes (.ofAreas allAreas) 0 (List.range' 0 nVma) [] 0x1000 0 0
      allAreas_sorted (Or.inr rfl) (by decide)
      hspot
    rw [Kern.sysVmaCreate_eq rfl rfl] at hrun
    change KState.after _ _ (createVm (.ofAreas allAreas) 0 0x1000 0 0) = _ at hrun
    rw [hcrash] at hrun
    exact nomatch hrun

end Jos
