/-
**What the free-list primitives do.**

One statement for each of the four primitives of the free list and one for the search for a huge
block, over an arbitrary state whose `page_free_list` is a chain.  The rest of the development uses
these and never looks inside the primitives again.

* `Jos.LinksOnly`, `Jos.Unlinked` — the effect of taking a page off the list: only links, the head
  pointer and the counter change;
* `Jos.removeElementPfl_ends`, `Jos.removeHeadPfl_ends`, `Jos.removeElement4MBPfl_ends` — what each
  removal returns, and that the assertion on the counter is the only way it can fail;
* `Jos.addHeadPfl_chain` — a page is put back in front;
* `Jos.findHugePage_spec` — a block that is found is aligned, lies in memory and has no `ALLOC`
  page.
-/

import JosKernel.FrameAlloc
import JosKernel.Outcome

set_option relaxedAutoImplicit false
set_option autoImplicit false

namespace Jos

open LinkedList Outcome

/-- How far the counter is from the length of the list. -/
def drift (s : Mm) (l : List ℕ) : BitVec 32 := s.freePagesCount - BitVec.ofNat 32 l.length

/-- The failure of `assert(free_pages_count > 0)`, which takes a counter that has drifted until it
wrapped. -/
def CounterAssert (s : Mm) (l : List ℕ) (c : Crash) : Prop :=
  c = .assertFailed "free_pages_count > 0" ∧ drift s l ≠ 0 ∧ 2 ^ 32 ≤ (drift s l).toNat + l.length

theorem ends_decFreePages {s s₁ : Mm} {l : List ℕ} {pp : ℕ} {Q : Mm → Prop} (hmem : pp ∈ l)
    (hlen : l.length ≤ s.npages) (hcount : s₁.freePagesCount = s.freePagesCount)
    (h : Q { s₁ with freePagesCount := s₁.freePagesCount - 1 }) :
    Ends (CounterAssert s l) Q (decFreePages s₁) := by
  unfold decFreePages
  refine ends_ite (fun hc => ⟨rfl, ?_⟩) (fun _ => h)
  have hpos := List.length_pos_of_mem hmem
  have hle := s.npages_le
  have hnat : (BitVec.ofNat 32 l.length).toNat = l.length := by
    rw [BitVec.toNat_ofNat, Nat.mod_eq_of_lt (by omega)]
  have hd : (drift s l).toNat = 2 ^ 32 - l.length := by
    rw [drift, ← hcount, hc, BitVec.toNat_sub, hnat]
    change (2 ^ 32 - l.length + 0) % 2 ^ 32 = _
    omega
  refine ⟨fun h0 => ?_, by omega⟩
  rw [h0] at hd
  change 0 = _ at hd
  omega

/-! ### Taking a page off the list -/

@[simp] theorem Mm.modPage_npages (s : Mm) (pp : ℕ) (f : PageInfo → PageInfo) :
    (s.modPage pp f).npages = s.npages := rfl

@[simp] theorem Mm.modPage_pageFreeList (s : Mm) (pp : ℕ) (f : PageInfo → PageInfo) :
    (s.modPage pp f).pageFreeList = s.pageFreeList := rfl

theorem Mm.modPage_self (s : Mm) (pp : ℕ) (f : PageInfo → PageInfo) :
    (s.modPage pp f).pages pp = f (s.pages pp) := Function.update_self ..

theorem Mm.modPage_of_ne (s : Mm) {pp i : ℕ} (f : PageInfo → PageInfo) (h : i ≠ pp) :
    (s.modPage pp f).pages i = s.pages i := Function.update_of_ne h ..

theorem Mm.modPage_modPage (s : Mm) (pp : ℕ) (f g : PageInfo → PageInfo) :
    (s.modPage pp f).modPage pp g = s.modPage pp (fun p => g (f p)) := by
  simp only [Mm.modPage, Function.update_self, Function.update_idem]

theorem Mm.link_setLink (s : Mm) (pp : ℕ) (q : Option ℕ) :
    (s.modPage pp (PageInfo.setLink q)).link = Function.update s.link pp q := by
  funext i
  by_cases h : i = pp
  · subst h
    rw [Mm.link, Mm.modPage_self, Function.update_self]
    rfl
  · rw [Mm.link, Mm.modPage_of_ne s _ h, Function.update_of_ne h]
    rfl

/-- A change that keeps every link of the free list keeps the link function. -/
theorem Mm.link_modPage (s : Mm) (pp : ℕ) {f : PageInfo → PageInfo}
    (hf : ∀ p, (f p).ppLink = p.ppLink) : (s.modPage pp f).link = s.link := by
  funext i
  by_cases h : i = pp
  · subst h
    rw [Mm.link, Mm.modPage_self, hf]
    rfl
  · rw [Mm.link, Mm.modPage_of_ne s _ h]
    rfl

/-- `s'` differs from `s` in the free list, its links and its counter only. -/
structure LinksOnly (s s' : Mm) : Prop where
  npages : s'.npages = s.npages
  premapped : s'.premappedFlag = s.premappedFlag
  lruLists : s'.lruLists = s.lruLists
  lruActiveCount : s'.lruActiveCount = s.lruActiveCount
  lruInactiveCount : s'.lruInactiveCount = s.lruInactiveCount
  mem : s'.mem = s.mem
  flags : ∀ i, (s'.pages i).pageFlags = (s.pages i).pageFlags
  ref : ∀ i, (s'.pages i).ppRef = (s.pages i).ppRef
  lruLink : ∀ i, (s'.pages i).lruLink = (s.pages i).lruLink

theorem LinksOnly.refl (s : Mm) : LinksOnly s s :=
  ⟨rfl, rfl, rfl, rfl, rfl, rfl, fun _ => rfl, fun _ => rfl, fun _ => rfl⟩

theorem LinksOnly.setLink {s s' : Mm} (h : LinksOnly s s') (pp : ℕ) (q : Option ℕ) :
    LinksOnly s (s'.modPage pp (PageInfo.setLink q)) where
  npages := h.npages
  premapped := h.premapped
  lruLists := h.lruLists
  lruActiveCount := h.lruActiveCount
  lruInactiveCount := h.lruInactiveCount
  mem := h.mem
  flags i := by
    by_cases hi : i = pp
    · subst hi
      rw [Mm.modPage_self]
      exact h.flags i
    · rw [Mm.modPage_of_ne _ _ hi]
      exact h.flags i
  ref i := by
    by_cases hi : i = pp
    · subst hi
      rw [Mm.modPage_self]
      exact h.ref i
    · rw [Mm.modPage_of_ne _ _ hi]
      exact h.ref i
  lruLink i := by
    by_cases hi : i = pp
    · subst hi
      rw [Mm.modPage_self]
      exact h.lruLink i
    · rw [Mm.modPage_of_ne _ _ hi]
      exact h.lruLink i

/-- **The page `pp` is off the list** `l`: the list is `l` without it, its own link is `NULL`, and
nothing outside the list has changed. -/
structure Unlinked (s s' : Mm) (l : List ℕ) (pp : ℕ) : Prop extends LinksOnly s s' where
  chain : Chain s'.link s'.pageFreeList (l.erase pp)
  off : ∀ i ∉ l, s'.link i = s.link i
  out : pp ∈ l → s'.link pp = none

/-- The counter is not part of the list. -/
theorem Unlinked.setCount {s s' : Mm} {l : List ℕ} {pp : ℕ} (h : Unlinked s s' l pp)
    (c : BitVec 32) : Unlinked s { s' with freePagesCount := c } l pp where
  npages := h.npages
  premapped := h.premapped
  lruLists := h.lruLists
  lruActiveCount := h.lruActiveCount
  lruInactiveCount := h.lruInactiveCount
  mem := h.mem
  flags := h.flags
  ref := h.ref
  lruLink := h.lruLink
  chain := h.chain
  off := h.off
  out := h.out

/-- A page that is not on the list is taken off by doing nothing. -/
theorem Unlinked.of_not_mem {s : Mm} {l : List ℕ} {pp : ℕ}
    (h : Chain s.link s.pageFreeList l) (hpp : pp ∉ l) : Unlinked s s l pp where
  toLinksOnly := LinksOnly.refl s
  chain := by rwa [List.erase_of_not_mem hpp]
  off _ _ := rfl
  out hmem := absurd hmem hpp

/-- `page_free_list = pp->pp_link; pp->pp_link = NULL;` takes the head off. -/
theorem Unlinked.of_head {s : Mm} {l : List ℕ} {pp : ℕ}
    (h : Chain s.link s.pageFreeList (pp :: l)) :
    Unlinked s ({ s with pageFreeList := s.link pp }.modPage pp (PageInfo.setLink none))
      (pp :: l) pp where
  toLinksOnly := by
    have h₀ : LinksOnly s { s with pageFreeList := s.link pp } :=
      ⟨rfl, rfl, rfl, rfl, rfl, rfl, fun _ => rfl, fun _ => rfl, fun _ => rfl⟩
    exact h₀.setLink pp none
  chain := by
    rw [Mm.link_setLink, List.erase_cons_head]
    exact h.pop
  off i hi := by
    rw [Mm.link_setLink, Function.update_of_ne (by rintro rfl; simp at hi)]
    rfl
  out _ := by rw [Mm.link_setLink, Function.update_self]

/-- `pp_old->pp_link = pp->pp_link; pp->pp_link = NULL;` takes a later page off. -/
theorem Unlinked.of_behind {s : Mm} {pre post : List ℕ} {b pp : ℕ}
    (h : Chain s.link s.pageFreeList (pre ++ b :: pp :: post)) :
    Unlinked s ((s.modPage b (PageInfo.setLink (s.link pp))).modPage pp (PageInfo.setLink none))
      (pre ++ b :: pp :: post) pp where
  toLinksOnly := ((LinksOnly.refl s).setLink _ _).setLink _ _
  chain := by
    have hnd := h.nodup
    have hpre : pp ∉ pre := by
      intro hmem
      exact (List.nodup_append.1 hnd).2.2 pp hmem pp (by simp) rfl
    have hb : b ≠ pp := by
      have hnd' := (List.nodup_append.1 hnd).2.1
      rintro rfl
      simp at hnd'
    rw [Mm.link_setLink, Mm.link_setLink, List.erase_append_right _ hpre,
      List.erase_cons_tail (by simpa using hb), List.erase_cons_head]
    exact h.unlink
  off i hi := by
    simp only [List.mem_append, List.mem_cons, not_or] at hi
    rw [Mm.link_setLink, Mm.link_setLink, Function.update_of_ne hi.2.2.1,
      Function.update_of_ne hi.2.1]
  out _ := by rw [Mm.link_setLink, Function.update_self]

/-- A node that is not the head of a chain has a predecessor. -/
theorem exists_behind {s : Mm} {pre post : List ℕ} {c : ℕ}
    (h : Chain s.link s.pageFreeList (pre ++ c :: post)) (hhd : s.pageFreeList ≠ some c) :
    ∃ pre' b, pre = pre' ++ [b] := by
  rcases List.eq_nil_or_concat pre with rfl | ⟨pre', b, hpre⟩
  · exact absurd h.1 hhd
  · exact ⟨pre', b, by simpa using hpre⟩

/-- **`remove_element_pfl`.**  The counter goes down exactly when the page was on the list. -/
theorem removeElementPfl_ends {s : Mm} {l : List ℕ} {pp : ℕ}
    (h : Chain s.link s.pageFreeList l) (hlen : l.length ≤ s.npages) :
    Ends (CounterAssert s l)
      (fun s' => Unlinked s s' l pp ∧
        s'.freePagesCount = s.freePagesCount - (if pp ∈ l then 1 else 0))
      (removeElementPfl s pp) := by
  unfold removeElementPfl
  refine ends_ite (fun hhd => ?_) (fun hhd => ?_)
  · rw [hhd] at h
    obtain ⟨l', rfl, h'⟩ := chain_some.1 h
    refine ends_decFreePages (List.mem_cons_self) hlen rfl ⟨?_, by simp [Mm.modPage]⟩
    exact (Unlinked.of_head (by rw [hhd]; exact h)).setCount _
  · rcases h.seek_cases hlen (· == pp) none with
      ⟨hno, hseek⟩ | ⟨pre, c, post, rfl, -, hc, hseek⟩
    · rw [hseek]
      have hpp : pp ∉ l := by
        intro hmem
        simpa using hno pp hmem
      exact ⟨Unlinked.of_not_mem h hpp, by simp [hpp]⟩
    · rw [hseek]
      obtain rfl : c = pp := by simpa using hc
      obtain ⟨pre', b, rfl⟩ := exists_behind h hhd
      simp only [List.getLast?_append, List.getLast?_singleton, Option.or]
      have hmem : c ∈ pre' ++ [b] ++ c :: post := by simp
      refine ends_decFreePages hmem hlen rfl ⟨?_, by simp [Mm.modPage]⟩
      have h' : Chain s.link s.pageFreeList (pre' ++ b :: c :: post) := by simpa using h
      have hun := (Unlinked.of_behind h').setCount (s.freePagesCount - 1)
      simpa [Mm.modPage] using hun

/-- **`remove_head_pfl`** on a non-empty list whose head has no references. -/
theorem removeHeadPfl_unlinked {s : Mm} {l : List ℕ} (h : Chain s.link s.pageFreeList l)
    (hlen : l.length ≤ s.npages) (hne : s.pageFreeList ≠ none)
    (href : ∀ pp, s.pageFreeList = some pp → (s.pages pp).ppRef = 0) :
    Ends (CounterAssert s l)
      (fun r => r.1 ∈ l ∧ Unlinked s r.2 l r.1 ∧ r.2.freePagesCount = s.freePagesCount - 1)
      (removeHeadPfl s) := by
  unfold removeHeadPfl
  cases hhd : s.pageFreeList with
  | none => exact absurd hhd hne
  | some pp =>
      rw [hhd] at h
      obtain ⟨l', rfl, h'⟩ := chain_some.1 h
      dsimp only
      rw [if_neg (by simp [href pp hhd]), ends_bind]
      refine ends_decFreePages List.mem_cons_self hlen rfl ⟨by simp, ?_, rfl⟩
      exact (Unlinked.of_head (by rw [hhd]; exact h)).setCount _

/-- The same on a list whose pages have no references. -/
theorem removeHeadPfl_ends {s : Mm} {l : List ℕ} (h : Chain s.link s.pageFreeList l)
    (hlen : l.length ≤ s.npages) (hne : s.pageFreeList ≠ none)
    (href : ∀ i ∈ l, (s.pages i).ppRef = 0) :
    Ends (CounterAssert s l)
      (fun r => r.1 ∈ l ∧ Unlinked s r.2 l r.1 ∧ r.2.freePagesCount = s.freePagesCount - 1)
      (removeHeadPfl s) := by
  refine removeHeadPfl_unlinked h hlen hne fun pp hpp => ?_
  rw [hpp] at h
  obtain ⟨l', rfl, -⟩ := chain_some.1 h
  exact href pp List.mem_cons_self

/-- The page `remove_element_4MB_pfl` takes is the head of the list. -/
def HeadBelow4MB (s : Mm) : Prop := ∃ hd, s.pageFreeList = some hd ∧ below4MB hd = true

instance (s : Mm) : Decidable (HeadBelow4MB s) :=
  match h : s.pageFreeList with
  | none => isFalse (by rintro ⟨hd, hhd, -⟩; rw [h] at hhd; exact absurd hhd (by simp))
  | some hd => decidable_of_iff (below4MB hd = true)
      ⟨fun hb => ⟨hd, h, hb⟩, by
        rintro ⟨hd', hhd, hb⟩
        rw [h, Option.some_inj] at hhd
        rwa [hhd]⟩

/-- **`remove_element_4MB_pfl`** on a list with a page below 4 MB.  The counter goes down unless the
page is the head of the list. -/
theorem removeElement4MBPfl_ends {s : Mm} {l : List ℕ} (h : Chain s.link s.pageFreeList l)
    (hlen : l.length ≤ s.npages) (hlow : ∃ i ∈ l, below4MB i = true) :
    Ends (CounterAssert s l)
      (fun r => ∃ pp, r.1 = some pp ∧ pp ∈ l ∧ Unlinked s r.2 l pp ∧
        r.2.freePagesCount = s.freePagesCount - (if HeadBelow4MB s then 0 else 1))
      (removeElement4MBPfl s) := by
  obtain ⟨i, hi, hib⟩ := hlow
  unfold removeElement4MBPfl
  cases hhd : s.pageFreeList with
  | none =>
      rw [h.eq_nil_iff.2 hhd] at hi
      simp at hi
  | some hd =>
      rw [hhd] at h
      obtain ⟨l', rfl, h'⟩ := chain_some.1 h
      refine ends_ite (fun hb => ?_) (fun hb => ?_)
      · have hbad : HeadBelow4MB s := ⟨hd, hhd, hb⟩
        exact ⟨hd, rfl, by simp,
          Unlinked.of_head (by rw [hhd]; exact h), by simp [hbad, Mm.modPage]⟩
      · have hok : ¬ HeadBelow4MB s := by
          rintro ⟨hd', hhd', hb'⟩
          rw [hhd, Option.some_inj] at hhd'
          rw [hhd'] at hb
          exact hb hb'
        rcases h.seek_cases hlen below4MB none with
          ⟨hno, -⟩ | ⟨pre, c, post, heq, -, hc, hseek⟩
        · rw [hno i hi] at hib
          exact absurd hib (by simp)
        · rw [hseek]
          have hcl : Chain s.link s.pageFreeList (pre ++ c :: post) := by rw [← heq, hhd]; exact h
          have hne : s.pageFreeList ≠ some c := by
            intro hcd
            rw [hhd, Option.some_inj] at hcd
            rw [hcd] at hb
            exact hb hc
          obtain ⟨pre', b, rfl⟩ := exists_behind hcl hne
          simp only [List.getLast?_append, List.getLast?_singleton, Option.or, ends_bind]
          have hmem : c ∈ hd :: l' := by rw [heq]; simp
          refine ends_decFreePages hmem hlen rfl
            ⟨c, rfl, hmem, ?_, by simp [hok, Mm.modPage]⟩
          have h'' : Chain s.link s.pageFreeList (pre' ++ b :: c :: post) := by simpa using hcl
          have hun := (Unlinked.of_behind h'').setCount (s.freePagesCount - 1)
          rw [heq]
          simpa [Mm.modPage] using hun

/-! ### Putting a page back -/

theorem addHeadPfl_of_ne (s : Mm) {pp i : ℕ} (h : i ≠ pp) :
    (addHeadPfl s pp).pages i = s.pages i :=
  Function.update_of_ne h ..

theorem addHeadPfl_self (s : Mm) (pp : ℕ) :
    (addHeadPfl s pp).pages pp = { s.pages pp with
      ppLink := s.pageFreeList, ppRef := 0, pageFlags := 0 } :=
  Function.update_self ..

/-- **`add_head_pfl`** puts a page that is not on the list in front of it. -/
theorem addHeadPfl_chain {s : Mm} {l : List ℕ} {pp : ℕ} (h : Chain s.link s.pageFreeList l)
    (hpp : pp ∉ l) :
    Chain (addHeadPfl s pp).link (addHeadPfl s pp).pageFreeList (pp :: l) := by
  have hlink : (addHeadPfl s pp).link = Function.update s.link pp s.pageFreeList := by
    funext i
    by_cases hi : i = pp
    · subst hi
      rw [Mm.link, addHeadPfl_self, Function.update_self]
    · rw [Mm.link, addHeadPfl_of_ne s hi, Function.update_of_ne hi]
      rfl
  rw [hlink]
  exact h.push hpp

/-! ### The search for a huge block -/

/-- The inner loop counts the whole block when no page of it is `ALLOC`, and otherwise gives 0. -/
theorem scanBlock_eq (s : Mm) (hpIdx : ℕ) : ∀ (n i count : ℕ),
    ((∀ k < n, (s.pages (i + k + hpIdx)).has alloc = false) ∧
        scanBlock s hpIdx n i count = count + n) ∨
      ((∃ k < n, (s.pages (i + k + hpIdx)).has alloc = true) ∧
        scanBlock s hpIdx n i count = 0) := by
  intro n
  induction n with
  | zero => intro i count; left; simp [scanBlock]
  | succ n ih =>
      intro i count
      cases hal : (s.pages (i + hpIdx)).has alloc with
      | true =>
          right
          refine ⟨⟨0, by omega, by simpa using hal⟩, ?_⟩
          rw [scanBlock, if_pos hal]
      | false =>
          rw [scanBlock, if_neg (by simp [hal])]
          rcases ih (i + 1) (count + 1) with ⟨hall, heq⟩ | ⟨⟨k, hk, hkal⟩, heq⟩
          · left
            refine ⟨?_, by rw [heq]; omega⟩
            intro k hk
            cases k with
            | zero => simpa using hal
            | succ k =>
                have := hall k (by omega)
                rwa [show i + 1 + k = i + (k + 1) by omega] at this
          · right
            refine ⟨⟨k + 1, by omega, ?_⟩, heq⟩
            rwa [show i + (k + 1) = i + 1 + k by omega]

/-- The outer loop, entered with a counter that is not carried over from a full block. -/
theorem scanBlocks_spec (s : Mm) : ∀ (n j hpIdx h : ℕ),
    scanBlocks s n j 0 hpIdx = some h →
      ∃ m, j ≤ m ∧ m < j + n ∧ h = m * kb ∧
        ∀ k < kb, (s.pages (h + k)).has alloc = false := by
  intro n
  induction n with
  | zero => intro j hpIdx h hh; simp [scanBlocks, kb] at hh
  | succ n ih =>
      intro j hpIdx h hh
      simp only [scanBlocks] at hh
      rcases scanBlock_eq s (j * kb) kb 0 0 with ⟨hall, heq⟩ | ⟨-, heq⟩
      · rw [heq, if_pos (by simp), Option.some_inj] at hh
        subst hh
        refine ⟨j, Nat.le_refl j, by omega, rfl, ?_⟩
        intro k hk
        have := hall k hk
        rwa [show 0 + k + j * kb = j * kb + k by omega] at this
      · rw [heq, if_neg (by decide)] at hh
        obtain ⟨m, hm₁, hm₂, hm₃, hm₄⟩ := ih (j + 1) (j * kb) h hh
        exact ⟨m, by omega, by omega, hm₃, hm₄⟩

/-- **A block that is found is aligned, lies in memory and has no `ALLOC` page.** -/
theorem findHugePage_spec {s : Mm} {h : ℕ} (hh : findHugePage s = some h) :
    kb ∣ h ∧ h + kb ≤ s.npages ∧ ∀ i, h ≤ i → i < h + kb → (s.pages i).has alloc = false := by
  obtain ⟨m, -, hm, rfl, hfree⟩ := scanBlocks_spec s _ _ _ _ hh
  refine ⟨⟨m, Nat.mul_comm m kb⟩, ?_, ?_⟩
  · have hlt : m + 1 ≤ s.npages / kb := by omega
    calc m * kb + kb = (m + 1) * kb := by rw [Nat.succ_mul]
      _ ≤ s.npages / kb * kb := Nat.mul_le_mul_right kb hlt
      _ ≤ s.npages := Nat.div_mul_le_self s.npages kb
  · intro i hi hi'
    have := hfree (i - m * kb) (by omega)
    rwa [show m * kb + (i - m * kb) = i by omega] at this

end Jos
