/-
**Frames for page tables while the kernel boots.**

While `PREMAPPED_FLAG` is set `page_alloc` only hands out frames below 4 MB, and it leaves the
counter of free pages alone when the first page of the list is such a frame. So the counter may be
higher than the list is long, and what matters is how many of the free frames can be handed out.

Main definitions:

* `Jos.Mm.usable`, `Jos.FramesLeft` — the free frames that can be handed out, and a number of them.

Main results:

* `Jos.pageAlloc_enough` — **with enough of them `page_alloc` hands out a frame**;
* `Jos.pageAlloc_boot` — what it does in any case.
-/

import JosKernel.PageTree

set_option relaxedAutoImplicit false
set_option autoImplicit false

namespace Jos

open LinkedList Outcome

/-- `page_alloc` can hand out the free frame `i`. -/
def Mm.usable (m : Mm) (i : ℕ) : Bool := !m.premappedFlag || below4MB i

/-- **There are `n` frames for `page_alloc`** on the free list `l`, and the counter of free pages is
not too low for it. -/
structure FramesLeft (m : Mm) (l : List ℕ) (n : ℕ) : Prop where
  frames : n ≤ (l.filter m.usable).length
  count : l.length ≤ m.freePagesCount.toNat

theorem FramesLeft.mono {m : Mm} {l : List ℕ} {n k : ℕ} (h : FramesLeft m l n) (hk : k ≤ n) :
    FramesLeft m l k :=
  ⟨Nat.le_trans hk h.frames, h.count⟩

theorem FramesLeft.congr {m m' : Mm} {l : List ℕ} {n : ℕ} (h : FramesLeft m l n)
    (hpre : m'.premappedFlag = m.premappedFlag) (hcount : m'.freePagesCount = m.freePagesCount) :
    FramesLeft m' l n := by
  have husable : m'.usable = m.usable := by
    funext i
    rw [Mm.usable, Mm.usable, hpre]
  refine ⟨?_, ?_⟩
  · rw [husable]
    exact h.frames
  · rw [hcount]
    exact h.count

/-! ### The counter -/

theorem decFreePages_pos {m : Mm} (h : m.freePagesCount ≠ 0) :
    decFreePages m = .ok { m with freePagesCount := m.freePagesCount - 1 } := by
  rw [decFreePages, if_neg h]
  rfl

/-- A counter that is not 0 does not stop the search for a frame below 4 MB. -/
theorem removeElement4MBPfl_counts {m : Mm} (h : m.freePagesCount ≠ 0) :
    Ends (· ≠ .assertFailed "free_pages_count > 0") (fun _ => True) (removeElement4MBPfl m) := by
  unfold removeElement4MBPfl
  split
  · exact fun hc => nomatch hc
  · refine ends_ite (fun _ => True.intro) fun _ => ?_
    split
    · exact fun hc => nomatch hc
    · exact True.intro
    · exact fun hc => nomatch hc
    · rw [decFreePages_pos (by simpa [Mm.modPage] using h)]
      exact True.intro

/-- The same for the head of the list. -/
theorem removeHeadPfl_counts {m : Mm} (h : m.freePagesCount ≠ 0) :
    Ends (· ≠ .assertFailed "free_pages_count > 0") (fun _ => True) (removeHeadPfl m) := by
  unfold removeHeadPfl
  split
  · exact fun hc => nomatch hc
  · refine ends_ite (fun _ hc => nomatch hc) fun _ => ?_
    dsimp only
    rw [decFreePages_pos (by simpa [Mm.modPage] using h)]
    exact True.intro

/-! ### Handing out a frame -/

section

variable {m : Mm} {l : List ℕ} {n : ℕ}

/-- The counter of free pages when there is a frame. -/
theorem FramesLeft.count_ne_zero (h : FramesLeft m l n) {pp : ℕ} (hpp : pp ∈ l) :
    m.freePagesCount ≠ 0 := by
  intro hzero
  have hcount := h.count
  rw [hzero] at hcount
  have hpos := List.length_pos_of_mem hpp
  exact absurd (Nat.lt_of_lt_of_le hpos hcount) (Nat.lt_irrefl 0)

/-- One frame less. -/
theorem FramesLeft.erase {m' : Mm} (h : FramesLeft m l (n + 1)) {pp : ℕ} (hpp : pp ∈ l)
    (hpre : m'.premappedFlag = m.premappedFlag)
    (hcount : m.freePagesCount.toNat - 1 ≤ m'.freePagesCount.toNat) :
    FramesLeft m' (l.erase pp) n := by
  have husable : m'.usable = m.usable := by
    funext i
    rw [Mm.usable, Mm.usable, hpre]
  have hframes := h.frames
  have hlist := h.count
  have hlen := List.length_erase_of_mem hpp
  refine ⟨?_, by omega⟩
  rw [husable]
  have hsplit : (l.filter m.usable).length ≤ ((l.erase pp).filter m.usable).length + 1 := by
    have hperm := (List.perm_cons_erase hpp).filter m.usable
    rw [hperm.length_eq, List.filter_cons]
    split
    · rfl
    · exact Nat.le_succ _
  omega

/-- Taking one away from the counter. -/
theorem toNat_count_sub {c : BitVec 32} {b : Prop} [Decidable b] (hc : c ≠ 0) :
    c.toNat - 1 ≤ (c - (if b then 0 else 1)).toNat := by
  have hpos : c.toNat ≠ 0 := fun hz => hc (BitVec.eq_of_toNat_eq hz)
  have hlt := c.isLt
  split
  · rw [show c - 0 = c from BitVec.sub_zero c]
    exact Nat.sub_le _ _
  · rw [BitVec.toNat_sub]
    change c.toNat - 1 ≤ (2 ^ 32 - 1 + c.toNat) % 2 ^ 32
    omega

/-- **With enough frames `page_alloc` hands out one.** -/
theorem pageAlloc_enough (h : FreeInv m l) (he : FramesLeft m l 1) :
    ∃ pp m', pageAlloc m allocZero = .ok (some pp, m') ∧ pp ∈ l ∧ Taken m m' allocZero pp ∧
      FreeInv m' (l.erase pp) ∧
      ∀ n, FramesLeft m l (n + 1) → FramesLeft m' (l.erase pp) n := by
  obtain ⟨i, hi⟩ : ∃ i, i ∈ l.filter m.usable :=
    List.exists_mem_of_length_pos (Nat.lt_of_lt_of_le Nat.one_pos he.frames)
  obtain ⟨hil, hiu⟩ := List.mem_filter.1 hi
  have hcount := he.count_ne_zero hil
  have hne : ¬ m.pageFreeList = none := by
    intro hnone
    rw [h.chain.eq_nil_iff.2 hnone] at hil
    exact nomatch hil
  have hhuge : ¬ allocZero &&& allocHuge ≠ 0 := by decide
  -- what is left to do once a frame is off the list
  have hfinish : ∀ {pp : ℕ} {m₁ : Mm}, pp ∈ l → Unlinked m m₁ l pp →
      m.freePagesCount.toNat - 1 ≤ m₁.freePagesCount.toNat →
      ∃ pp' m', pageAllocFinish allocZero (some pp) m₁ = .ok (some pp', m') ∧ pp' ∈ l ∧
        Taken m m' allocZero pp' ∧
        FreeInv m' (l.erase pp') ∧ ∀ n, FramesLeft m l (n + 1) → FramesLeft m' (l.erase pp') n := by
    intro pp m₁ hpp hun hle
    obtain ⟨r, hr, hr₁, htaken, hfree, hsame⟩ :=
      (pageAllocFinish_taken (E := fun _ => False) h.freeList hpp
        hun (by decide : allocZero &&& poisonAfterFree = 0)).exists_ok fun _ hc => hc
    obtain ⟨pg, m'⟩ := r
    obtain rfl : pg = some pp := hr₁
    refine ⟨pp, m', hr, hpp, htaken, h.of_taken htaken hfree,
      fun n hn => hn.erase hpp htaken.premapped ?_⟩
    have hsame : m'.freePagesCount = m₁.freePagesCount := hsame
    rw [hsame]
    exact hle
  rw [pageAlloc, if_neg hne, if_neg hhuge]
  cases hpre : m.premappedFlag with
  | true =>
      have hlow : ∃ i ∈ l, below4MB i = true := ⟨i, hil, by simpa [Mm.usable, hpre] using hiu⟩
      obtain ⟨r, hr, ⟨pp, hr₁, hpp, hun, hc⟩, -⟩ :=
        ((removeElement4MBPfl_ends h.chain h.length_le hlow).and
          (removeElement4MBPfl_counts hcount)).exists_ok fun c hc => hc.2 hc.1.1
      obtain ⟨pg, m₁⟩ := r
      obtain rfl : pg = some pp := hr₁
      have hc : m₁.freePagesCount = m.freePagesCount - (if HeadBelow4MB m then 0 else 1) := hc
      obtain ⟨pp', m', hrun, hrest⟩ := hfinish hpp hun (by rw [hc]; exact toNat_count_sub hcount)
      refine ⟨pp', m', ?_, hrest⟩
      rw [if_pos rfl, hr]
      exact hrun
  | false =>
      obtain ⟨r, hr, ⟨hpp, hun, hc⟩, -⟩ :=
        ((removeHeadPfl_ends h.chain h.length_le hne fun i hi => (h.listed i hi).2.2).and
          (removeHeadPfl_counts hcount)).exists_ok
          fun c hc => hc.2 hc.1.1
      obtain ⟨pp, m₁⟩ := r
      have hc : m₁.freePagesCount = m.freePagesCount - 1 := hc
      obtain ⟨pp', m', hrun, hrest⟩ :=
        hfinish hpp hun (by rw [hc]; exact @toNat_count_sub _ False _ hcount)
      refine ⟨pp', m', ?_, hrest⟩
      rw [if_neg Bool.false_ne_true, hr]
      exact hrun

/-- **`page_alloc` while the kernel boots**: it fails or panics only when the frames do not
suffice. -/
theorem pageAlloc_boot (h : FreeInv m l) :
    Ends (fun c => c.Panics ∧ ¬ FramesLeft m l 1)
      (fun r => (r = (none, m) ∧ ¬ FramesLeft m l 1) ∨ ∃ pp ∈ l, r.1 = some pp ∧
        Taken m r.2 allocZero pp ∧ FreeInv r.2 (l.erase pp) ∧
        ∀ n, FramesLeft m l (n + 1) → FramesLeft r.2 (l.erase pp) n)
      (pageAlloc m allocZero) := by
  by_cases he : FramesLeft m l 1
  · obtain ⟨pp, m', hrun, hpp, htaken, hfree, henough⟩ := pageAlloc_enough h he
    rw [hrun]
    exact Or.inr ⟨pp, hpp, rfl, htaken, hfree, henough⟩
  · refine (pageAlloc_outcome h (by decide) (by decide)).mono (fun _ hc => ⟨hc.1, he⟩) ?_
    rintro r (⟨rfl, -⟩ | ⟨pp, hpp, hr, htaken, hfree, -⟩)
    · exact Or.inl ⟨rfl, he⟩
    · exact Or.inr ⟨pp, hpp, hr, htaken, hfree,
        fun n hn => absurd (hn.mono (Nat.le_add_left 1 n)) he⟩

end

end Jos
