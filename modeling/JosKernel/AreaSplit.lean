/-
**Splitting an area.**

`vma_split_lookup` cuts a range out of an area. Without `vma_remove` the descriptor is kept for the
range and moved forward in place; with `vma_remove` the descriptor goes back to the free list first,
where the first remainder takes it again. On a range of whole pages both leave exactly the parts of
the area that they should.

Main definitions:

* `Jos.Span`, `Jos.Vma.part` — addresses, kind and permission of an area, and of a part of it;
* `Jos.Replaced` — an area was replaced by others in its place.

Main results:

* `Jos.Sorted.splitOff` — a part that is split off comes to its place;
* `Jos.split_keep`, `Jos.split_remove` — the two modes of `vma_split_lookup`;
* `Jos.split_exact` — **splitting is exact**.
-/

import JosKernel.SortedAreas

set_option relaxedAutoImplicit false
set_option autoImplicit false

namespace Jos

open LinkedList Outcome

/-! ### Parts of an area -/

/-- Start, end, kind and permission of an area. -/
structure Span where
  start : ℕ
  stop : ℕ
  type : VmaType
  perm : BitVec 32
  deriving DecidableEq

def Vma.span (v : Vma) : Span := ⟨v.va.toNat, v.stop, v.type, v.perm⟩

/-- The part `[a, b)` of an area, if there is one. -/
def Vma.part (v : Vma) (a b : ℕ) : List Span := if a < b then [⟨a, b, v.type, v.perm⟩] else []

theorem Vma.length_part_le (v : Vma) (a b : ℕ) : (v.part a b).length ≤ 1 := by
  unfold Vma.part
  split
  · exact Nat.le_refl 1
  · exact Nat.zero_le 1

/-- **The descriptors between `pre` and `post` were replaced**: `new` are there now, with the areas
`spans`. -/
structure Replaced (s s' : Vm) (e : ℕ) (pre new post lf : List ℕ) (spans : List Span) : Prop where
  sorted : Sorted (s'.envs e) (pre ++ new ++ post) lf
  spans : ((s'.envs e).areas new).map Vma.span = spans
  others : ∀ j ∈ pre ++ post, (s'.vma e j).body = (s.vma e j).body

/-- Nothing changes but the areas of one environment. -/
structure AreasOnly (s s' : Vm) (e : ℕ) : Prop where
  same : s' = s.modSpace e fun _ => s'.envs e
  pgdir : (s'.envs e).pgdir = (s.envs e).pgdir
  allocPages : (s'.envs e).allocPages = (s.envs e).allocPages

theorem AreasOnly.refl (s : Vm) (e : ℕ) : AreasOnly s s e := by
  refine ⟨?_, rfl, rfl⟩
  rw [Vm.modSpace, Function.update_eq_self]

theorem AreasOnly.trans {s s' s'' : Vm} {e : ℕ} (h : AreasOnly s s' e) (h' : AreasOnly s' s'' e) :
    AreasOnly s s'' e := by
  refine ⟨?_, h'.pgdir.trans h.pgdir, h'.allocPages.trans h.allocPages⟩
  rw [h'.same, Vm.modSpace_self, h.same]
  simp only [Vm.modSpace, Function.update_idem]

theorem AreasOnly.modVma (s : Vm) (e i : ℕ) (f : Vma → Vma) :
    AreasOnly s (s.modSpace e fun sp => sp.modVma i f) e := by
  refine ⟨?_, ?_, ?_⟩
  · rw [Vm.modSpace_self]
    rfl
  · rw [Vm.modSpace_self]
    rfl
  · rw [Vm.modSpace_self]
    rfl

theorem Vma.span_of_body {v w : Vma} (h : v.body = w.body) : v.span = w.span := by
  change v.body.span = w.body.span
  rw [h]

/-- **There are fewer than `n` free descriptors**, and `vma_new` dereferences `NULL`. -/
def Short (lf : List ℕ) (n : ℕ) (c : Crash) : Prop := lf.length < n ∧ c = .nullDeref

/-- Two free descriptors are enough for two parts. -/
theorem Vma.not_short (v : Vma) {a b a' b' : ℕ} {lf : List ℕ} {c : Crash} (hfree : 2 ≤ lf.length) :
    ¬ Short lf ((v.part a b).length + (v.part a' b').length) c := by
  rintro ⟨hlt, -⟩
  have hleft := v.length_part_le a b
  have hright := v.length_part_le a' b'
  omega

namespace Sorted

variable {s : Vm} {e : ℕ} {pre post lf : List ℕ} {i el : ℕ}

/-- A range that lies behind the areas `pre` and before the areas `post`. -/
structure Room (sp : Space) (pre post : List ℕ) (va len : BitVec 32) : Prop where
  page : va.toNat % 4096 = 0 ∧ len.toNat % 4096 = 0
  low : va.toNat + len.toNat ≤ uTop.toNat
  before : ∀ j ∈ pre, (sp.vmas j).stop ≤ va.toNat
  after : ∀ j ∈ post, va.toNat + len.toNat ≤ (sp.vmas j).va.toNat

/-- **A part that is split off comes to its place.** -/
theorem splitOff (h : Sorted (s.envs e) (pre ++ post) (el :: lf)) {va len perm : BitVec 32}
    (hroom : Room (s.envs e) pre post va len) (hpos : 0 < len.toNat) :
    ∃ s', vmaSplitOff s e va len .anon perm = .ok s' ∧
      Replaced s s' e pre [el] post lf [⟨va.toNat, va.toNat + len.toNat, .anon, perm⟩] ∧
      AreasOnly s s' e := by
  have hlen : (newArea (s.envs e) el va len .anon 0 0 0 perm).len = len :=
    roundUp_of_page hroom.page.2
  have hok : AreasOk ((s.envs e).areas pre ++ newArea (s.envs e) el va len .anon 0 0 0 perm ::
      (s.envs e).areas post) := by
    have hold := h.ok
    rw [Space.areas_append] at hold
    obtain ⟨hok₁, hok₂, hbefore⟩ := areasOk_append.1 hold
    refine areasOk_append.2 ⟨hok₁, ⟨?_, List.pairwise_cons.2 ⟨?_, hok₂.order⟩⟩, ?_⟩
    · intro v hv
      rcases List.mem_cons.1 hv with rfl | hv
      · exact ⟨by rw [hlen]; exact hroom.page, by rw [hlen]; exact hpos,
          by rw [hlen]; exact hroom.low⟩
      · exact hok₂.fits v hv
    · intro v hv
      obtain ⟨j, hj, rfl⟩ := List.mem_map.1 hv
      rw [Vma.Before, hlen]
      exact hroom.after j hj
    · intro v hv w hw
      rcases List.mem_cons.1 hw with rfl | hw
      · obtain ⟨j, hj, rfl⟩ := List.mem_map.1 hv
        exact hroom.before j hj
      · exact hbefore v hv w hw
  obtain ⟨sp', hnew, hsorted, hat⟩ := h.insert (by simp) hok
  have hself : (s.modSpace e fun _ => sp').envs e = sp' := Vm.modSpace_self ..
  refine ⟨s.modSpace e fun _ => sp', ?_, ⟨?_, ?_, ?_⟩, ⟨?_, ?_, ?_⟩⟩
  · rw [vmaSplitOff, Vm.onSpace, hnew]
    rfl
  · rw [hself, List.append_assoc]
    exact hsorted
  · rw [hself, Space.areas, List.map_singleton, hat.body, List.map_singleton,
      Vma.span, Vma.stop, hlen]
    rfl
  · intro j hj
    rw [Vm.vma, hself]
    refine hat.others j ?_
    rintro rfl
    exact h.lists.not_mem_free hj List.mem_cons_self
  · rw [hself]
  · rw [hself]
    exact hat.pgdir
  · rw [hself]
    exact hat.allocPages

/-- Without a free descriptor the part is not split off. -/
theorem splitOff_short (h : Sorted (s.envs e) (pre ++ post) []) {va len perm : BitVec 32}
    (hpage : va.toNat % 4096 = 0) :
    vmaSplitOff s e va len .anon perm = .error .nullDeref := by
  have hpage' : ¬ va % BitVec.ofNat 32 pgSize ≠ 0 :=
    not_not_intro (mod_pgSize_eq_zero.2 hpage)
  rw [vmaSplitOff, Vm.onSpace, vmaNew_empty h.lists, if_neg (by simp), if_neg hpage']
  rfl

/-- The same for a part that may be empty: it needs no descriptor then. -/
theorem splitOff_if {c : Prop} [Decidable c] {spans : List Span}
    (h : Sorted (s.envs e) (pre ++ post) lf) {va len perm : BitVec 32}
    (hroom : Room (s.envs e) pre post va len) (hc : c ↔ 0 < len.toNat)
    (hspans : (if 0 < len.toNat then [⟨va.toNat, va.toNat + len.toNat, .anon, perm⟩] else []) =
      spans) :
    Ends (Short lf spans.length)
      (fun s' => ∃ new lf', lf = new ++ lf' ∧ Replaced s s' e pre new post lf' spans ∧
        AreasOnly s s' e)
      (if c then vmaSplitOff s e va len .anon perm else pure s) := by
  by_cases hpos : 0 < len.toNat
  · rw [if_pos (hc.2 hpos)]
    rw [if_pos hpos] at hspans
    cases lf with
    | nil =>
        rw [splitOff_short h hroom.page.1, ← hspans]
        exact ⟨Nat.zero_lt_one, rfl⟩
    | cons el lf =>
        obtain ⟨s', hs', hrep, honly⟩ := @splitOff s e pre post lf el h va len perm hroom hpos
        rw [hs']
        exact ⟨[el], lf, rfl, hspans ▸ hrep, honly⟩
  · rw [if_neg fun hc' => hpos (hc.1 hc')]
    rw [if_neg hpos] at hspans
    subst hspans
    refine ⟨[], lf, rfl, ⟨?_, rfl, fun _ _ => rfl⟩, AreasOnly.refl s e⟩
    rw [List.append_nil]
    exact h

/-- An area in use is made smaller. -/
theorem shrink {sp : Space} (h : Sorted sp (pre ++ i :: post) lf) {f : Vma → Vma}
    (hlink : ∀ v, (f v).vmaLink = v.vmaLink) (hfits : (f (sp.vmas i)).Fits)
    (hva : (sp.vmas i).va.toNat ≤ (f (sp.vmas i)).va.toNat)
    (hstop : (f (sp.vmas i)).stop ≤ (sp.vmas i).stop) :
    Sorted (sp.modVma i f) (pre ++ i :: post) lf := by
  have hnd := nodup_split h.lists.alloc.nodup
  refine ⟨h.lists.modVma (h.lists.not_mem_free (by simp)) hlink, ?_⟩
  have hok := h.ok
  rw [Space.areas_append, Space.areas_cons] at hok
  obtain ⟨hok₁, hok₂, hbefore⟩ := areasOk_append.1 hok
  obtain ⟨hafter, horder⟩ := List.pairwise_cons.1 hok₂.order
  have hbody : ∀ j ≠ i, ((sp.modVma i f).vmas j).body = (sp.vmas j).body := fun j hj => by
    rw [Space.modVma_of_ne _ _ hj]
  rw [Space.areas_append, Space.areas_cons, Space.modVma_self, Space.areas_congr fun j hj =>
    hbody j ?_,
    Space.areas_congr fun j hj => hbody j ?_]
  · refine areasOk_append.2 ⟨hok₁, ⟨?_, List.pairwise_cons.2 ⟨fun w hw => ?_, horder⟩⟩,
      fun v hv w hw => ?_⟩
    · intro w hw
      rcases List.mem_cons.1 hw with rfl | hw
      · exact ⟨hfits.page, hfits.pos, hfits.low⟩
      · exact hok₂.fits w (List.mem_cons_of_mem _ hw)
    · exact Nat.le_trans hstop (hafter w hw)
    · rcases List.mem_cons.1 hw with rfl | hw
      · exact Nat.le_trans (hbefore v hv _ List.mem_cons_self) hva
      · exact hbefore v hv w (List.mem_cons_of_mem _ hw)
  · rintro rfl
    exact hnd.2 hj
  · rintro rfl
    exact hnd.1 hj

end Sorted

/-! ### The range that is cut out -/

/-- A range of whole pages inside an area. -/
structure Cut (v : Vma) (va size : BitVec 32) : Prop where
  page : va.toNat % 4096 = 0 ∧ size.toNat % 4096 = 0
  pos : 0 < size.toNat
  start : v.va.toNat ≤ va.toNat
  inside : va.toNat + size.toNat ≤ v.stop

namespace Cut

variable {v : Vma} {va size : BitVec 32}

theorem covers (h : Cut v va size) (hv : v.Fits) : v.covers va = true := by
  have hpos := h.pos
  have hinside := h.inside
  rw [Vma.stop] at hinside
  rw [hv.covers_iff]
  exact ⟨h.start, by omega⟩

/-- The length of the part before the range. -/
theorem toNat_left (h : Cut v va size) : (va - v.va).toNat = va.toNat - v.va.toNat :=
  BitVec.toNat_sub_of_le (BitVec.le_def.2 h.start)

/-- What is left of the area behind the first cut. -/
theorem toNat_rest (h : Cut v va size) : (v.len - (va - v.va)).toNat = v.stop - va.toNat := by
  have hstart := h.start
  have hinside := h.inside
  rw [Vma.stop] at hinside ⊢
  rw [BitVec.toNat_sub_of_le (BitVec.le_def.2 (by rw [h.toNat_left]; omega)), h.toNat_left]
  omega

theorem toNat_stop (h : Cut v va size) (hv : v.Fits) :
    (va + size).toNat = va.toNat + size.toNat := by
  have hlow := hv.low
  have hinside := h.inside
  have hU : uTop.toNat = 4005560320 := rfl
  rw [Vma.stop] at hinside
  rw [BitVec.toNat_add]
  omega

/-- The length of the part behind the range. -/
theorem toNat_right (h : Cut v va size) (hv : v.Fits) :
    (v.len - (va + size - v.va)).toNat = v.stop - (va.toNat + size.toNat) := by
  have hstart := h.start
  have hinside := h.inside
  rw [Vma.stop] at hinside ⊢
  have hoff : (va + size - v.va).toNat = va.toNat + size.toNat - v.va.toNat := by
    rw [BitVec.toNat_sub_of_le (BitVec.le_def.2 (by rw [h.toNat_stop hv]; omega)), h.toNat_stop hv]
  rw [BitVec.toNat_sub_of_le (BitVec.le_def.2 (by rw [hoff]; omega)), hoff]
  omega

/-- There is a part before the range. -/
theorem left_iff (h : Cut v va size) : v.va < va ↔ 0 < (va - v.va).toNat := by
  rw [h.toNat_left, BitVec.lt_def]
  omega

/-- There is a part behind the range. -/
theorem right_iff (h : Cut v va size) (hv : v.Fits) :
    va + size < v.va + v.len ↔ 0 < (v.len - (va + size - v.va)).toNat := by
  rw [h.toNat_right hv, BitVec.lt_def, h.toNat_stop hv, hv.toNat_stop, Vma.stop]
  omega

/-- The check of the size lets the range pass. -/
theorem sizeCheck (h : Cut v va size) (hv : v.Fits) : vmaSizeCheck va size v = true := by
  have hinside := h.inside
  rw [Vma.stop] at hinside
  rw [vmaSizeCheck, Bool.not_eq_true', decide_eq_false_iff_not, BitVec.lt_def, h.toNat_stop hv,
    hv.toNat_stop]
  omega

theorem part_left (h : Cut v va size) (hanon : v.type = .anon) :
    (if 0 < (va - v.va).toNat then
      [(⟨v.va.toNat, v.va.toNat + (va - v.va).toNat, .anon, v.perm⟩ : Span)] else []) =
      v.part v.va.toNat va.toNat := by
  have hstart := h.start
  rw [Vma.part, h.toNat_left, hanon]
  simp only [Nat.sub_pos_iff_lt, Nat.add_sub_cancel' hstart]

theorem part_right (h : Cut v va size) (hv : v.Fits) (hanon : v.type = .anon) :
    (if 0 < (v.len - (va + size - v.va)).toNat then
      [(⟨(va + size).toNat, (va + size).toNat + (v.len - (va + size - v.va)).toNat, .anon, v.perm⟩ :
        Span)] else []) =
      v.part (va.toNat + size.toNat) v.stop := by
  have hinside := h.inside
  rw [Vma.part, h.toNat_right hv, h.toNat_stop hv, hanon]
  simp only [Nat.sub_pos_iff_lt, Nat.add_sub_cancel' hinside]

end Cut

/-! ### The two modes -/

namespace Replaced

variable {s s₁ s₂ : Vm} {e : ℕ} {pre post new lf : List ℕ} {spans : List Span}

theorem span_mem (h : Replaced s s₁ e pre new post lf spans) {j : ℕ} (hj : j ∈ new) :
    (s₁.vma e j).span ∈ spans := by
  rw [← h.spans]
  exact List.mem_map.2 ⟨_, Space.mem_areas hj, rfl⟩

/-- Areas were replaced before `mid`, and then behind it. -/
theorem behind {new₁ mid new₂ : List ℕ} {spans₁ spansMid spans₂ : List Span}
    (h : Replaced s₁ s₂ e (pre ++ new₁ ++ mid) new₂ post lf spans₂)
    (hold : ∀ j ∈ pre ++ post, (s₁.vma e j).body = (s.vma e j).body)
    (hnew : ((s₁.envs e).areas new₁).map Vma.span = spans₁)
    (hmid : ((s₁.envs e).areas mid).map Vma.span = spansMid) :
    Replaced s s₂ e pre (new₁ ++ mid ++ new₂) post lf (spans₁ ++ spansMid ++ spans₂) := by
  have hsame : ∀ l ⊆ pre ++ new₁ ++ mid, (s₂.envs e).areas l = (s₁.envs e).areas l := fun l hl =>
    Space.areas_congr fun j hj => h.others j (List.mem_append_left _ (hl hj))
  refine ⟨?_, ?_, fun j hj => ?_⟩
  · simpa [List.append_assoc] using h.sorted
  · rw [Space.areas_append, Space.areas_append, List.map_append, List.map_append, h.spans,
      hsame new₁ (by simp),
      hsame mid (by simp), hnew, hmid]
  · refine Eq.trans (h.others j ?_) (hold j hj)
    simp only [List.mem_append] at hj ⊢
    tauto

end Replaced

section

variable {s : Vm} {e i : ℕ} {pre post lf : List ℕ} {va size : BitVec 32}

/-- The descriptor `i` is made smaller, and the part that it gives up is split off. -/
theorem cutOff {c : Prop} [Decidable c] {pre' post' : List ℕ} {f : Vma → Vma} {len perm : BitVec 32}
    {spans : List Span}
    (hshrunk : Sorted ((s.envs e).modVma i f) (pre' ++ post') lf)
    (hroom : Sorted.Room ((s.envs e).modVma i f) pre' post' va len) (hc : c ↔ 0 < len.toNat)
    (hspans : (if 0 < len.toNat then [⟨va.toNat, va.toNat + len.toNat, .anon, perm⟩] else []) =
      spans)
    (hskip : ¬ c → f (s.vma e i) = s.vma e i) :
    Ends (Short lf spans.length)
      (fun s' => ∃ new lf', lf = new ++ lf' ∧
        Replaced (s.modSpace e fun sp => sp.modVma i f) s' e pre' new post' lf' spans ∧
        AreasOnly s s' e)
      (if c then vmaSplitOff (s.modSpace e fun sp => sp.modVma i f) e va len .anon perm
        else pure s) := by
  have hself : (s.modSpace e fun sp => sp.modVma i f).envs e = (s.envs e).modVma i f :=
    Vm.modSpace_self ..
  have hsplit := @Sorted.splitOff_if (s.modSpace e fun sp => sp.modVma i f) e pre' post' lf c _
    spans (by rw [hself]; exact hshrunk)
    va len perm (by rw [hself]; exact hroom) hc hspans
  have heq : (if c then vmaSplitOff (s.modSpace e fun sp => sp.modVma i f) e va len .anon perm
      else pure s) =
      if c then vmaSplitOff (s.modSpace e fun sp => sp.modVma i f) e va len .anon perm
        else pure (s.modSpace e fun sp => sp.modVma i f) := by
    by_cases hc' : c
    · rw [if_pos hc', if_pos hc']
    · have hid : (s.modSpace e fun sp => sp.modVma i f) = s :=
        Vm.modSpace_eq_self (Space.modVma_eq_self (hskip hc'))
      rw [if_neg hc', if_neg hc', hid]
  rw [heq]
  refine hsplit.post ?_
  rintro s' ⟨new, lf', hlf, hrep, honly⟩
  exact ⟨new, lf', hlf, hrep, (AreasOnly.modVma s e i f).trans honly⟩

theorem modVma_stop {sp : Space} {f : Vma → Vma} {j : ℕ} (hj : j ≠ i) :
    ((sp.modVma i f).vmas j).stop = (sp.vmas j).stop := by
  rw [Space.modVma_of_ne _ _ hj]

/-- The first cut: the descriptor moves to the start of the range. -/
theorem keepLeft {V : Vma} (h : Sorted (s.envs e) (pre ++ i :: post) lf) (hV : s.vma e i = V)
    (hcut : Cut V va size) (hanon : V.type = .anon) :
    Ends (Short lf (V.part V.va.toNat va.toNat).length)
      (fun s' => ∃ ls lf', lf = ls ++ lf' ∧
        Replaced (s.modSpace e fun sp => sp.modVma i fun v =>
          { v with va := va, len := v.len - (va - V.va) }) s' e pre ls
          (i :: post) lf' (V.part V.va.toNat va.toNat) ∧ AreasOnly s s' e)
      (if V.va < va then
        vmaSplitOff (s.modSpace e fun sp => sp.modVma i fun v =>
          { v with va := va, len := v.len - (va - V.va) }) e V.va
          (va - V.va) V.type V.perm else pure s) := by
  have hV' : (s.envs e).vmas i = V := hV
  have hfits : V.Fits := hV ▸ h.fits (by simp)
  have hnd := nodup_split h.lists.alloc.nodup
  obtain ⟨hpre, hpost⟩ := h.ordered.between
  rw [hV'] at hpre hpost
  have hstart := hcut.start
  have hinside := hcut.inside
  have hpos := hcut.pos
  have hlow := hfits.low
  have hpage := hfits.page
  have hcp := hcut.page
  have hstop : V.stop = V.va.toNat + V.len.toNat := rfl
  rw [hanon]
  refine cutOff ?_ ⟨?_, ?_, fun j hj => ?_, fun j hj => ?_⟩ hcut.left_iff (hcut.part_left hanon)
    fun hlt => ?_
  · refine h.shrink (fun _ => rfl) ?_ ?_ ?_
    · rw [hV']
      refine ⟨?_, ?_, ?_⟩
      · change va.toNat % 4096 = 0 ∧ (V.len - (va - V.va)).toNat % 4096 = 0
        rw [hcut.toNat_rest]
        omega
      · change 0 < (V.len - (va - V.va)).toNat
        rw [hcut.toNat_rest]
        omega
      · change va.toNat + (V.len - (va - V.va)).toNat ≤ _
        rw [hcut.toNat_rest]
        omega
    · rw [hV']
      exact hstart
    · rw [hV']
      change va.toNat + (V.len - (va - V.va)).toNat ≤ _
      rw [hcut.toNat_rest]
      omega
  · rw [hcut.toNat_left]
    omega
  · rw [hcut.toNat_left]
    omega
  · rw [modVma_stop (by rintro rfl; exact hnd.1 hj)]
    exact hpre j hj
  · rw [hcut.toNat_left]
    rcases List.mem_cons.1 hj with rfl | hj'
    · rw [Space.modVma_self]
      change _ ≤ va.toNat
      omega
    · have hb := hpost j hj'
      rw [Space.modVma_of_ne _ _ (by rintro rfl; exact hnd.2 hj')]
      omega
  · have heq : va = V.va := by
      rw [BitVec.lt_def] at hlt
      exact BitVec.eq_of_toNat_eq (by omega)
    rw [hV, heq, BitVec.sub_self, BitVec.sub_zero]

/-- The second cut: the descriptor, which is at the start of the range, is cut to its length. -/
theorem keepRight {V : Vma} (h : Sorted (s.envs e) (pre ++ i :: post) lf) (hfits : V.Fits)
    (hcut : Cut V va size) (hanon : V.type = .anon) (hva : (s.vma e i).va = va)
    (hlen : (s.vma e i).len = V.len - (va - V.va)) :
    Ends (Short lf (V.part (va.toNat + size.toNat) V.stop).length)
      (fun s' => ∃ rs lf', lf = rs ++ lf' ∧
        Replaced (s.modSpace e fun sp => sp.modVma i fun v =>
          { v with len := v.len - (V.len - (va + size - V.va)) }) s' e
          (pre ++ [i]) rs post lf' (V.part (va.toNat + size.toNat) V.stop) ∧ AreasOnly s s' e)
      (if va + size < V.va + V.len then
        vmaSplitOff (s.modSpace e fun sp => sp.modVma i fun v =>
          { v with len := v.len - (V.len - (va + size - V.va)) }) e
          (va + size) (V.len - (va + size - V.va)) V.type V.perm else pure s) := by
  have hnd := nodup_split h.lists.alloc.nodup
  obtain ⟨hpre, hpost⟩ := h.ordered.between
  have hstart := hcut.start
  have hinside := hcut.inside
  have hpos := hcut.pos
  have hlow := hfits.low
  have hpage := hfits.page
  have hcp := hcut.page
  have hstop : V.stop = V.va.toNat + V.len.toNat := rfl
  have hva' : ((s.envs e).vmas i).va = va := hva
  have hlen' : ((s.envs e).vmas i).len.toNat = V.stop - va.toNat := by
    rw [← hcut.toNat_rest, ← hlen]
    rfl
  have hsize : (((s.envs e).vmas i).len - (V.len - (va + size - V.va))).toNat = size.toNat := by
    rw [BitVec.toNat_sub_of_le (BitVec.le_def.2 (by rw [hcut.toNat_right hfits, hlen']; omega)),
      hcut.toNat_right hfits, hlen']
    omega
  rw [Vma.stop, hva', hlen'] at hpost
  rw [hva'] at hpre
  rw [hanon]
  have hlist : pre ++ i :: post = pre ++ [i] ++ post := by simp
  refine @cutOff s e i lf (va + size) (va + size < V.va + V.len) _ (pre ++ [i]) post
    (fun v => { v with len := v.len - (V.len - (va + size - V.va)) })
    (V.len - (va + size - V.va)) V.perm _ ?_
    ⟨?_, ?_, fun j hj => ?_, fun j hj => ?_⟩ (hcut.right_iff hfits) (hcut.part_right hfits hanon)
      fun hlt => ?_
  · rw [← hlist]
    refine h.shrink (fun _ => rfl) ⟨?_, ?_, ?_⟩ (Nat.le_refl _) ?_
    · change ((s.envs e).vmas i).va.toNat % 4096 = 0 ∧
        (((s.envs e).vmas i).len - (V.len - (va + size - V.va))).toNat % 4096 = 0
      rw [hsize, hva']
      exact hcp
    · change 0 < (((s.envs e).vmas i).len - (V.len - (va + size - V.va))).toNat
      rw [hsize]
      exact hpos
    · change ((s.envs e).vmas i).va.toNat + (((s.envs e).vmas i).len -
        (V.len - (va + size - V.va))).toNat ≤ _
      rw [hsize, hva']
      omega
    · change ((s.envs e).vmas i).va.toNat + (((s.envs e).vmas i).len -
        (V.len - (va + size - V.va))).toNat ≤
        ((s.envs e).vmas i).va.toNat + ((s.envs e).vmas i).len.toNat
      rw [hsize, hlen']
      omega
  · rw [hcut.toNat_stop hfits, hcut.toNat_right hfits]
    omega
  · rw [hcut.toNat_stop hfits, hcut.toNat_right hfits]
    omega
  · rw [hcut.toNat_stop hfits]
    rcases List.mem_append.1 hj with hj' | hj'
    · have hb := hpre j hj'
      rw [modVma_stop (by rintro rfl; exact hnd.1 hj')]
      omega
    · rw [List.mem_singleton.1 hj', Space.modVma_self]
      change ((s.envs e).vmas i).va.toNat + (((s.envs e).vmas i).len -
        (V.len - (va + size - V.va))).toNat ≤ _
      exact Nat.le_of_eq (by rw [hsize, hva'])
  · have hb := hpost j hj
    rw [hcut.toNat_stop hfits, hcut.toNat_right hfits, Space.modVma_of_ne _
      _ (by rintro rfl; exact hnd.2 hj)]
    omega
  · have hzero : V.len - (va + size - V.va) = 0 := by
      have hno := (hcut.right_iff hfits).not.1 hlt
      exact BitVec.eq_of_toNat_eq (Nat.eq_zero_of_not_pos hno)
    rw [hzero]
    simp

/-- **The range is kept**: the descriptor moves to it, and what is left of the area gets new
descriptors. -/
theorem split_keep {V : Vma} (h : Sorted (s.envs e) (pre ++ i :: post) lf) (hV : s.vma e i = V)
    (hcut : Cut V va size) (hanon : V.type = .anon) :
    Ends (Short lf ((V.part V.va.toNat va.toNat).length +
      (V.part (va.toNat + size.toNat) V.stop).length))
      (fun s' => ∃ ls rs lf', lf = ls ++ rs ++ lf' ∧
        Replaced s s' e pre (ls ++ [i] ++ rs) post lf' (V.part V.va.toNat va.toNat ++
          [⟨va.toNat, va.toNat + size.toNat, V.type, V.perm⟩] ++
            V.part (va.toNat + size.toNat) V.stop) ∧
        (s'.vma e i).span = ⟨va.toNat, va.toNat + size.toNat, V.type, V.perm⟩ ∧
        ls.length = (V.part V.va.toNat va.toNat).length ∧ AreasOnly s s' e)
      (vmaSplitParts s e i V va size false) := by
  have hfits : V.Fits := hV ▸ h.fits (by simp)
  have hnd := nodup_split h.lists.alloc.nodup
  simp only [vmaSplitParts, Bool.false_eq_true, if_false]
  refine Ends.ite_bind (Ends.mono (keepLeft h hV hcut hanon)
    (fun c hc => ⟨Nat.lt_add_right _ hc.1, hc.2⟩) ?_)
  rintro s₁ ⟨ls, lf₂, rfl, hrep₁, honly₁⟩
  -- the descriptor after the first cut
  have hi₁ : (s₁.vma e i).body =
      { V with va := va, len := V.len - (va - V.va), vmaLink := none } := by
    rw [hrep₁.others i (by simp), Vm.vma, Vm.modSpace_self, Space.modVma_self]
    change Vma.body { s.vma e i with va := va, len := (s.vma e i).len - (va - V.va) } = _
    rw [hV]
    rfl
  have hva₁ : (s₁.vma e i).va = va := congrArg (·.va) hi₁
  have hlen₁' : (s₁.vma e i).len = V.len - (va - V.va) := congrArg (·.len) hi₁
  have hls : ls.length = (V.part V.va.toNat va.toNat).length := by
    rw [← hrep₁.spans, List.length_map, Space.areas, List.length_map]
  refine Ends.mono (keepRight hrep₁.sorted hfits hcut hanon hva₁ hlen₁') (fun c hc => ⟨?_, hc.2⟩) ?_
  · have hlt := hc.1
    rw [List.length_append]
    omega
  rintro s₂ ⟨rs, lf', rfl, hrep₂, honly₂⟩
  obtain ⟨s₁', hs₁'⟩ : ∃ s₁', (s₁.modSpace e fun sp => sp.modVma i fun v =>
    { v with len := v.len - (V.len - (va + size - V.va)) }) = s₁' := ⟨_, rfl⟩
  rw [hs₁'] at hrep₂
  have hother : ∀ j ≠ i, s₁'.vma e j = s₁.vma e j := by
    intro j hj
    rw [← hs₁', Vm.vma, Vm.modSpace_self, Space.modVma_of_ne _ _ hj]
    rfl
  have hspan : (s₁'.vma e i).span = ⟨va.toNat, va.toNat + size.toNat, V.type, V.perm⟩ := by
    have hbody : s₁'.vma e i = { s₁.vma e i with len := (s₁.vma e i).len -
        (V.len - (va + size - V.va)) } := by
      rw [← hs₁', Vm.vma, Vm.modSpace_self, Space.modVma_self]
      rfl
    have htype : (s₁.vma e i).type = V.type := congrArg (·.type) hi₁
    have hperm : (s₁.vma e i).perm = V.perm := congrArg (·.perm) hi₁
    have hinside := hcut.inside
    have hstart := hcut.start
    have hlen : ((s₁.vma e i).len - (V.len - (va + size - V.va))).toNat = size.toNat := by
      rw [hlen₁', BitVec.toNat_sub_of_le
        (BitVec.le_def.2 (by rw [hcut.toNat_right hfits, hcut.toNat_rest]; omega)),
        hcut.toNat_right hfits, hcut.toNat_rest]
      omega
    rw [hbody, Vma.span, Vma.stop, hva₁, htype, hperm, hlen]
  have hne : ∀ j ∈ ls, j ≠ i := by
    rintro j hj rfl
    exact (nodup_split hrep₁.sorted.lists.alloc.nodup).1 (List.mem_append_right _ hj)
  refine ⟨ls, rs, lf', by rw [List.append_assoc], hrep₂.behind (fun j hj => ?_) ?_ ?_, ?_, hls,
    honly₁.trans honly₂⟩
  · have hji : j ≠ i := by
      rintro rfl
      rcases List.mem_append.1 hj with hj | hj
      · exact hnd.1 hj
      · exact hnd.2 hj
    rw [hother j hji, hrep₁.others j (by simp at hj ⊢; tauto), Vm.vma, Vm.modSpace_self,
      Space.modVma_of_ne _ _ hji]
    rfl
  · rw [← hrep₁.spans, Space.areas_congr fun j hj => congrArg Vma.body (hother j (hne j hj))]
  · exact congrArg (fun x => [x]) hspan
  · rw [Vma.span_of_body (hrep₂.others i (by simp))]
    exact hspan

/-- **The range is removed**: what is left of the area gets descriptors, the first one that of the
area itself. -/
theorem split_remove {V : Vma} (h : Sorted (s.envs e) (pre ++ post) lf) (hfits : V.Fits)
    (hpre : ∀ j ∈ pre, (s.vma e j).stop ≤ V.va.toNat)
    (hpost : ∀ j ∈ post, V.stop ≤ (s.vma e j).va.toNat) (hcut : Cut V va size)
    (hanon : V.type = .anon) (vmad : ℕ) :
    Ends (Short lf ((V.part V.va.toNat va.toNat).length +
      (V.part (va.toNat + size.toNat) V.stop).length))
      (fun s' => ∃ new lf', lf = new ++ lf' ∧
        Replaced s s' e pre new post lf' (V.part V.va.toNat va.toNat ++ V.part
          (va.toNat + size.toNat) V.stop) ∧ AreasOnly s s' e)
      (vmaSplitParts s e vmad V va size true) := by
  have hstart := hcut.start
  have hinside := hcut.inside
  have hpos := hcut.pos
  have hlow := hfits.low
  have hpage := hfits.page
  have hcp := hcut.page
  have hstop : V.stop = V.va.toNat + V.len.toNat := rfl
  have hroom : Sorted.Room (s.envs e) pre post V.va (va - V.va) := by
    refine ⟨?_, ?_, hpre, fun j hj => ?_⟩
    · rw [hcut.toNat_left]
      omega
    · rw [hcut.toNat_left]
      omega
    · have hb := hpost j hj
      rw [hcut.toNat_left]
      exact Nat.le_trans (by omega) hb
  simp only [vmaSplitParts, if_true, hanon]
  refine Ends.ite_bind (Ends.mono (@Sorted.splitOff_if s e pre post lf (V.va < va) _ _ h V.va
    (va - V.va) V.perm hroom hcut.left_iff
    (hcut.part_left hanon)) (fun c hc => ⟨Nat.lt_add_right _ hc.1, hc.2⟩) ?_)
  rintro s₁ ⟨ls, lf₁, rfl, hrep₁, honly₁⟩
  have hroom₁ : Sorted.Room (s₁.envs e) (pre ++ ls) post (va + size)
    (V.len - (va + size - V.va)) := by
    refine ⟨?_, ?_, fun j hj => ?_, fun j hj => ?_⟩
    · rw [hcut.toNat_stop hfits, hcut.toNat_right hfits]
      omega
    · rw [hcut.toNat_stop hfits, hcut.toNat_right hfits]
      omega
    · rw [hcut.toNat_stop hfits]
      change (s₁.vma e j).span.stop ≤ _
      rcases List.mem_append.1 hj with hj | hj
      · have hb := hpre j hj
        rw [Vma.span_of_body (hrep₁.others j (by simp [hj]))]
        exact Nat.le_trans hb (by omega)
      · have hm := hrep₁.span_mem hj
        rw [Vma.part] at hm
        split at hm
        · rw [List.mem_singleton.1 hm]
          exact Nat.le_add_right ..
        · exact absurd hm List.not_mem_nil
    · have hb := hpost j hj
      rw [hcut.toNat_stop hfits, hcut.toNat_right hfits]
      change _ ≤ (s₁.vma e j).span.start
      rw [Vma.span_of_body (hrep₁.others j (by simp [hj]))]
      exact Nat.le_trans (by omega) hb
  have hls : ls.length = (V.part V.va.toNat va.toNat).length := by
    rw [← hrep₁.spans, List.length_map, Space.areas, List.length_map]
  refine Ends.mono (@Sorted.splitOff_if s₁ e (pre ++ ls) post lf₁ (va + size < V.va + V.len) _ _
    hrep₁.sorted (va + size)
    (V.len - (va + size - V.va)) V.perm hroom₁ (hcut.right_iff hfits) (hcut.part_right hfits hanon))
    (fun c hc => ⟨?_, hc.2⟩) ?_
  · have hlt := hc.1
    rw [List.length_append]
    omega
  rintro s₂ ⟨rs, lf', rfl, hrep₂, honly₂⟩
  have hrep : Replaced s s₂ e pre (ls ++ [] ++ rs) post lf'
      (V.part V.va.toNat va.toNat ++ [] ++ V.part (va.toNat + size.toNat) V.stop) :=
    Replaced.behind (by rw [List.append_nil]; exact hrep₂) hrep₁.others hrep₁.spans rfl
  exact ⟨ls ++ rs, lf', by rw [List.append_assoc], by simpa using hrep, honly₁.trans honly₂⟩

/-- The descriptor goes back to the free list and the parts are split off. -/
theorem splitLookup_remove {s₁ : Vm} (h : Sorted (s.envs e) (pre ++ i :: post) lf)
    (hpages : vmaRemovePages s e (s.vma e i).va (s.vma e i).len = .ok s₁)
    (hcut : Cut (s.vma e i) va size) (hanon : (s.vma e i).type = .anon) :
    Ends (Short (i :: lf) (((s.vma e i).part (s.vma e i).va.toNat va.toNat).length +
        ((s.vma e i).part (va.toNat + size.toNat) (s.vma e i).stop).length))
      (fun s' => ∃ new lf', i :: lf = new ++ lf' ∧
        Replaced s s' e pre new post lf' ((s.vma e i).part (s.vma e i).va.toNat va.toNat ++
          (s.vma e i).part (va.toNat + size.toNat) (s.vma e i).stop) ∧ AreasOnly s₁ s' e)
      (vmaRemoveAlloced s e i true >>=
        fun r => vmaSplitParts r.2 e i (s.vma e i) va size true) := by
  have hnd := nodup_split h.lists.alloc.nodup
  have hne : ∀ j ∈ pre ++ post, j ≠ i := by
    rintro j hj rfl
    rcases List.mem_append.1 hj with hj | hj
    · exact hnd.1 hj
    · exact hnd.2 hj
  have hlists : (s₁.envs e).lists = (s.envs e).lists :=
    (removePagesFrom_ends e _ _ 0 s).of_ok hpages e
  have hvmas : ∀ j, (s₁.envs e).vmas j = (s.envs e).vmas j :=
    fun j => congrFun (congrArg Prod.fst hlists) j
  obtain ⟨s₂, hs₂⟩ : ∃ s₂, (s₁.modSpace e fun sp => vmaUnlink sp (pre.getLastD i) i) = s₂ :=
    ⟨_, rfl⟩
  have hsp₂ : s₂.envs e = vmaUnlink (s₁.envs e) (pre.getLastD i) i := by
    rw [← hs₂, Vm.modSpace_self]
  have hsorted₂ : Sorted (s₂.envs e) (pre ++ post) (i :: lf) := by
    rw [hsp₂]
    exact (h.congr hlists).unlinked
  have hbody₂ : ∀ j ∈ pre ++ post, (s₂.vma e j).body = (s.vma e j).body := by
    intro j hj
    rw [Vm.vma, hsp₂, Sorted.unlink_body j (hne j hj), hvmas]
    rfl
  have hspan₂ : ∀ j ∈ pre ++ post, (s₂.vma e j).span = (s.vma e j).span :=
    fun j hj => Vma.span_of_body (hbody₂ j hj)
  have honly₂ : AreasOnly s₁ s₂ e := by
    refine ⟨?_, ?_, ?_⟩
    · rw [hsp₂, ← hs₂]
      rfl
    · rw [hsp₂]
      exact (vmaUnlink_keeps ..).1
    · rw [hsp₂]
      exact (vmaUnlink_keeps ..).2
  obtain ⟨hpre, hpost⟩ := h.ordered.between
  have hpre₂ : ∀ j ∈ pre, (s₂.vma e j).span.stop ≤ (s.vma e i).va.toNat := by
    intro j hj
    rw [hspan₂ j (List.mem_append_left _ hj)]
    exact hpre j hj
  have hpost₂ : ∀ j ∈ post, (s.vma e i).stop ≤ (s₂.vma e j).span.start := by
    intro j hj
    rw [hspan₂ j (List.mem_append_right _ hj)]
    exact hpost j hj
  rw [h.ordered.remove true]
  simp only [if_true]
  rw [hpages]
  change Ends _ _ (vmaSplitParts (s₁.modSpace e fun sp => vmaUnlink sp (pre.getLastD i) i) e i
    (s.vma e i) va size true)
  rw [hs₂]
  refine (split_remove hsorted₂ (h.fits (by simp)) hpre₂ hpost₂ hcut hanon i).post ?_
  rintro s' ⟨new, lf', hlf, hrep, honly⟩
  exact ⟨new, lf', hlf, ⟨hrep.sorted, hrep.spans, fun j hj => (hrep.others j hj).trans
    (hbody₂ j hj)⟩, honly₂.trans honly⟩

/-- The lookup and the tests of `vma_split_lookup`, for a range inside an area. -/
theorem vmaSplitLookup_begin (h : Sorted (s.envs e) (pre ++ i :: post) lf)
    (hcut : Cut (s.vma e i) va size)
    (hcheck : vmaConsistencyCheck (s.vma e i) (s.vma e i).type = true) (vmaRemove : Bool) :
    vmaSplitLookup s e va size vmaRemove =
      if (s.vma e i).hps then pure (none, s) else if (s.vma e i).type ≠ .anon then pure (none, s)
        else
        (if vmaRemove then vmaRemoveAlloced s e i true >>=
          fun r => vmaSplitParts r.2 e i (s.vma e i) va size true
          else vmaSplitParts s e i (s.vma e i) va size false) >>= fun s' => pure (some i, s') := by
  have hfits : (s.vma e i).Fits := h.fits (by simp)
  have hlook : vmaLookup (s.envs e) va = .ok (some i) := h.ordered.lookup (hcut.covers hfits)
  have hsize := hcut.sizeCheck hfits
  unfold vmaSplitLookup
  rw [hlook]
  change (if ¬ vmaConsistencyCheck (s.vma e i) (s.vma e i).type = true then _ else _) = _
  rw [if_neg (not_not_intro hcheck)]
  simp only [hsize, not_true_eq_false, if_false]
  cases vmaRemove with
  | false => rfl
  | true => simp only [if_true, bind_assoc, pure_bind]

/-- **Splitting is exact** on a range of whole pages inside one area. The only failure is one of
`vma_remove_pages`. -/
theorem split_exact (s : Vm) (e i : ℕ) (pre post lf : List ℕ) (va size : BitVec 32)
    (h : Sorted (s.envs e) (pre ++ i :: post) lf) (hfree : 2 ≤ lf.length)
    (hcheck : ∀ j ∈ pre ++ i :: post, vmaConsistencyCheck (s.vma e j) (s.vma e j).type = true)
    (hcut : Cut (s.vma e i) va size) :
    ((s.vma e i).type = .anon ∧ (s.vma e i).hps = false →
      (∃ s' new lf', vmaSplitLookup s e va size false = .ok (some i, s') ∧ i ∈ new ∧
        (s'.vma e i).span = ⟨va.toNat, va.toNat + size.toNat, (s.vma e i).type, (s.vma e i).perm⟩ ∧
        Replaced s s' e pre new post lf' ((s.vma e i).part (s.vma e i).va.toNat va.toNat ++
          [⟨va.toNat, va.toNat + size.toNat, (s.vma e i).type, (s.vma e i).perm⟩] ++
          (s.vma e i).part (va.toNat + size.toNat) (s.vma e i).stop)) ∧
      Ends (fun c => vmaRemovePages s e (s.vma e i).va (s.vma e i).len = .error c)
        (fun r => r.1 = some i ∧ ∃ new lf', Replaced s r.2 e pre new post lf'
          ((s.vma e i).part (s.vma e i).va.toNat va.toNat ++ (s.vma e i).part
            (va.toNat + size.toNat) (s.vma e i).stop))
        (vmaSplitLookup s e va size true)) ∧
    ((s.vma e i).type ≠ .anon ∨ (s.vma e i).hps = true →
      ∀ vmaRemove, vmaSplitLookup s e va size vmaRemove = .ok (none, s)) := by
  have hbegin := vmaSplitLookup_begin h hcut (hcheck i (by simp))
  refine ⟨fun ⟨hanon, hhps⟩ => ?_, fun hother vmaRemove => ?_⟩
  · have hgo : ∀ vmaRemove, vmaSplitLookup s e va size vmaRemove =
        (if vmaRemove then vmaRemoveAlloced s e i true >>=
          fun r => vmaSplitParts r.2 e i (s.vma e i) va size true
          else vmaSplitParts s e i (s.vma e i) va size false) >>= fun s' => pure (some i, s') := by
      intro vmaRemove
      rw [hbegin, hhps, if_neg Bool.false_ne_true, if_neg (not_not_intro hanon)]
    constructor
    · obtain ⟨s', hs', ls, rs, lf', -, hrep, hspan, -⟩ := (split_keep h rfl hcut hanon).exists_ok
        fun c => Vma.not_short _ hfree
      refine ⟨s', ls ++ [i] ++ rs, lf', ?_, by simp, hspan, hrep⟩
      rw [hgo, if_neg Bool.false_ne_true, hs']
      rfl
    · rw [hgo, if_pos rfl]
      cases hpages : vmaRemovePages s e (s.vma e i).va (s.vma e i).len with
      | error c =>
          rw [h.ordered.remove true, if_pos rfl]
          rw [hpages]
          rfl
      | ok s₁ =>
          obtain ⟨s', hs', new, lf', -, hrep, -⟩ :=
            (splitLookup_remove h hpages hcut hanon).exists_ok
            fun c => Vma.not_short _ (Nat.le_succ_of_le hfree)
          rw [hs']
          exact ⟨rfl, new, lf', hrep⟩
  · rw [hbegin]
    by_cases hhps : (s.vma e i).hps = true
    · rw [if_pos hhps]
      rfl
    · rw [if_neg hhps, if_pos (hother.resolve_right hhps)]
      rfl

end

/-- An environment with the given areas and an empty page directory. -/
def Vm.ofAreasDir (as : List Vma) : Vm := Vm.mapless.modSpace 0 fun _ => Space.ofAreas (some 1) as 0

/-- The second of four pages is cut out, and kept or removed. -/
theorem split_exact_second : ∃ s kept removed new new' lf lf',
    (s.vma 0 0).span = ⟨0x1000, 0x5000, .anon, 6⟩ ∧
    vmaSplitLookup s 0 0x2000 0x1000 false = .ok (some 0, kept) ∧ Replaced s kept 0 [] new [] lf
      [⟨0x1000, 0x2000, .anon, 6⟩, ⟨0x2000, 0x3000, .anon, 6⟩, ⟨0x3000, 0x5000, .anon, 6⟩] ∧
    vmaSplitLookup s 0 0x2000 0x1000 true = .ok (some 0, removed) ∧
      Replaced s removed 0 [] new' [] lf'
        [⟨0x1000, 0x2000, .anon, 6⟩, ⟨0x3000, 0x5000, .anon, 6⟩] := by
  have hsorted := @ofAreas_sorted [userArea 0x1000 0x4000] (by decide) (by decide) (some 1) 0
  obtain ⟨hkeep, hremove⟩ :=
    (split_exact (Vm.ofAreasDir [userArea 0x1000 0x4000]) 0 0 [] [] _ 0x2000
    0x1000 hsorted (by decide) (by decide) ⟨by decide, by decide, by decide, by decide⟩).1 ⟨rfl,
      rfl⟩
  have hpages : (vmaRemovePages (Vm.ofAreasDir [userArea 0x1000 0x4000]) 0 0x1000
      0x4000).toOption.isSome = true := by decide +kernel
  obtain ⟨kept, new, lf, hs, -, -, hrep⟩ := hkeep
  obtain ⟨⟨-, removed⟩, hs', rfl, new', lf', hrep'⟩ := hremove.exists_ok fun c hc => by
    change vmaRemovePages (Vm.ofAreasDir [userArea 0x1000 0x4000]) 0 0x1000 0x4000 = .error c at hc
    rw [hc] at hpages
    exact nomatch hpages
  exact ⟨_, kept, removed, new, new', lf, lf', rfl, hs, hrep, hs', hrep'⟩

end Jos
