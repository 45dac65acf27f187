/-
**The representation of the lists of pages in use.**

A list of `kern/pmap.c` is kept three times over: as the chain of its pages, as a pointer to the
last of them and as a counter. The operations of `Lru.lean` keep the three together, with two
exceptions. `lru_remove_el` neither takes away the head of a list nor moves the tail, and
`lru_ta_insert` puts a page on the inactive list and counts it as active.

Main definitions:

* `Jos.LruRep` — the three representations of a list agree;
* `Jos.LruInv` — they do on both sides, and the lists have no page in common;
* `Jos.LruOp`, `Jos.lruStep` — the nine operations as a transition system;
* `Jos.LruOp.Clean` — an operation that is not one of the exceptions.

Main results:

* `Jos.LruInv.insertHead`, `Jos.LruInv.insertTail`, `Jos.LruInv.removeHead`,
  `Jos.LruInv.removeTail`, `Jos.LruInv.removeEl` — what an operation does to the lists;
* `Jos.lru_lists_kept` — **the representation is kept** along every run of clean operations, and an
  operation that is not clean breaks it.
-/

import JosKernel.FrameAllocList
import JosKernel.LabelledRun
import JosKernel.Lru
import JosKernel.Outcome

set_option relaxedAutoImplicit false
set_option autoImplicit false

namespace Jos

open LabelledRun LinkedList

/-! ### Reading what was written -/

namespace Mm

variable (s : Mm) (q : LruSide) (p : Option ℕ) (n : BitVec 32) (pp : ℕ)

@[simp] theorem npages_setLruLink : (s.setLruLink pp p).npages = s.npages := rfl

@[simp] theorem lruHead_setLruLink : (s.setLruLink pp p).lruHead q = s.lruHead q := rfl

@[simp] theorem lruTail_setLruLink : (s.setLruLink pp p).lruTail q = s.lruTail q := rfl

@[simp] theorem lruCount_setLruLink : (s.setLruLink pp p).lruCount q = s.lruCount q := by
  cases q <;> rfl

@[simp] theorem lruLink_setLruLink :
    (s.setLruLink pp p).lruLink = Function.update s.lruLink pp p := by
  funext i
  by_cases hi : i = pp
  · subst hi
    rw [lruLink, setLruLink, modPage_self, Function.update_self]
  · rw [lruLink, setLruLink, modPage_of_ne _ _ hi, Function.update_of_ne hi]
    rfl

@[simp] theorem npages_setLruHead : (s.setLruHead q p).npages = s.npages := rfl

@[simp] theorem lruLink_setLruHead : (s.setLruHead q p).lruLink = s.lruLink := rfl

@[simp] theorem lruHead_setLruHead : (s.setLruHead q p).lruHead q = p := by cases q <;> rfl

@[simp] theorem lruTail_setLruHead (q' : LruSide) :
    (s.setLruHead q p).lruTail q' = s.lruTail q' := by
  cases q <;> cases q' <;> rfl

@[simp] theorem lruCount_setLruHead (q' : LruSide) :
    (s.setLruHead q p).lruCount q' = s.lruCount q' := by
  cases q' <;> rfl

@[simp] theorem npages_setLruTail : (s.setLruTail q p).npages = s.npages := rfl

@[simp] theorem lruLink_setLruTail : (s.setLruTail q p).lruLink = s.lruLink := rfl

@[simp] theorem lruTail_setLruTail : (s.setLruTail q p).lruTail q = p := by cases q <;> rfl

@[simp] theorem lruHead_setLruTail (q' : LruSide) :
    (s.setLruTail q p).lruHead q' = s.lruHead q' := by
  cases q <;> cases q' <;> rfl

@[simp] theorem lruCount_setLruTail (q' : LruSide) :
    (s.setLruTail q p).lruCount q' = s.lruCount q' := by
  cases q' <;> rfl

@[simp] theorem npages_addLruCount : (s.addLruCount n q).npages = s.npages := by cases q <;> rfl

@[simp] theorem lruLink_addLruCount : (s.addLruCount n q).lruLink = s.lruLink := by cases q <;> rfl

@[simp] theorem lruHead_addLruCount (q' : LruSide) :
    (s.addLruCount n q).lruHead q' = s.lruHead q' := by
  cases q <;> rfl

@[simp] theorem lruTail_addLruCount (q' : LruSide) :
    (s.addLruCount n q).lruTail q' = s.lruTail q' := by
  cases q <;> rfl

@[simp] theorem lruCount_addLruCount : (s.addLruCount n q).lruCount q = s.lruCount q + n := by
  cases q <;> rfl

variable {q}

theorem lruHead_setLruHead_of_ne {q' : LruSide} (h : q' ≠ q) :
    (s.setLruHead q p).lruHead q' = s.lruHead q' := by
  cases q <;> cases q' <;> first | rfl | exact absurd rfl h

theorem lruTail_setLruTail_of_ne {q' : LruSide} (h : q' ≠ q) :
    (s.setLruTail q p).lruTail q' = s.lruTail q' := by
  cases q <;> cases q' <;> first | rfl | exact absurd rfl h

theorem lruCount_addLruCount_of_ne {q' : LruSide} (h : q' ≠ q) :
    (s.addLruCount n q).lruCount q' = s.lruCount q' := by
  cases q <;> cases q' <;> first | rfl | exact absurd rfl h

end Mm

/-! ### The three representations -/

/-- **The representations of a list agree**: the pages of `l` in their order, the last of them as
the tail, and their number. -/
structure LruRep (s : Mm) (q : LruSide) (l : List ℕ) : Prop where
  chain : Chain s.lruLink (s.lruHead q) l
  tail : s.lruTail q = l.getLast?
  count : s.lruCount q = BitVec.ofNat 32 l.length

/-- **The invariant of the two lists.** -/
structure LruInv (s : Mm) (L : LruSide → List ℕ) : Prop where
  rep : ∀ q, LruRep s q (L q)
  bound : ∀ q, ∀ p ∈ L q, p < s.npages
  apart : ∀ q q' p, p ∈ L q → p ∈ L q' → q = q'

/-- The page is on one of the lists. -/
def Mm.OnList (s : Mm) (pp : ℕ) : Prop := ∃ q, Visits s.lruLink (s.lruHead q) pp

/-- The lists of `s` are represented well. -/
def LruOk (s : Mm) : Prop := ∃ L, LruInv s L

namespace LruInv

variable {s : Mm} {L : LruSide → List ℕ}

theorem nodup (h : LruInv s L) (q : LruSide) : (L q).Nodup := (h.rep q).chain.nodup

theorem length_le (h : LruInv s L) (q : LruSide) : (L q).length ≤ s.npages := by
  have hsub : L q ⊆ List.range s.npages := fun p hp => List.mem_range.2 (h.bound q p hp)
  have hle := List.Nodup.length_le_of_subset (h.nodup q) hsub
  rwa [List.length_range] at hle

theorem onList_iff (h : LruInv s L) {pp : ℕ} : s.OnList pp ↔ ∃ q, pp ∈ L q :=
  exists_congr fun q => (h.rep q).chain.visits_iff

/-- The counter as a number. -/
theorem count_toNat (h : LruInv s L) (q : LruSide) : (s.lruCount q).toNat = (L q).length := by
  have hle := h.length_le q
  have hnp := s.npages_le
  rw [(h.rep q).count, BitVec.toNat_ofNat, Nat.mod_eq_of_lt (by omega)]

/-- **One list is edited**: the links of the pages of the other one, its ends and its counter
stay. -/
theorem edit (h : LruInv s L) {s' : Mm} {q : LruSide} {l : List ℕ} (hnp : s'.npages = s.npages)
    (hrep : LruRep s' q l) (hbound : ∀ p ∈ l, p < s.npages)
    (hnew : ∀ p ∈ l, ∀ q' ≠ q, p ∉ L q') (hlink : ∀ q' ≠ q, ∀ p ∈ L q', s'.lruLink p = s.lruLink p)
    (hrest : ∀ q' ≠ q, s'.lruHead q' = s.lruHead q' ∧ s'.lruTail q' = s.lruTail q' ∧
      s'.lruCount q' = s.lruCount q') :
    LruInv s' (Function.update L q l) := by
  refine ⟨?_, ?_, ?_⟩
  · intro q'
    by_cases hq : q' = q
    · subst hq
      rw [Function.update_self]
      exact hrep
    · obtain ⟨hhead, htail, hcount⟩ := hrest q' hq
      rw [Function.update_of_ne hq]
      refine ⟨?_, htail.trans (h.rep q').tail, hcount.trans (h.rep q').count⟩
      rw [hhead]
      exact (h.rep q').chain.congr (hlink q' hq)
  · intro q' p hp
    rw [hnp]
    by_cases hq : q' = q
    · subst hq
      rw [Function.update_self] at hp
      exact hbound p hp
    · rw [Function.update_of_ne hq] at hp
      exact h.bound q' p hp
  · intro q₁ q₂ p h₁ h₂
    by_cases hq₁ : q₁ = q <;> by_cases hq₂ : q₂ = q
    · rw [hq₁, hq₂]
    · subst hq₁
      rw [Function.update_self] at h₁
      rw [Function.update_of_ne hq₂] at h₂
      exact absurd h₂ (hnew p h₁ q₂ hq₂)
    · subst hq₂
      rw [Function.update_self] at h₂
      rw [Function.update_of_ne hq₁] at h₁
      exact absurd h₁ (hnew p h₂ q₁ hq₁)
    · rw [Function.update_of_ne hq₁] at h₁
      rw [Function.update_of_ne hq₂] at h₂
      exact h.apart q₁ q₂ p h₁ h₂

/-! ### Insertion -/

/-- **A page goes to the head of a list.** -/
theorem insertHead (h : LruInv s L) {pp : ℕ} (hpp : pp < s.npages) (hno : ∀ q, pp ∉ L q)
    (q : LruSide) :
    LruInv ((lruInsertHead s q pp).addLruCount 1 q) (Function.update L q (pp :: L q)) := by
  obtain ⟨s₁, hs₁, hnp, hlink, hhead, hcount, hrest⟩ : ∃ s₁ : Mm,
      s₁ = (if s.lruHead q = none then s.setLruTail q (some pp) else s) ∧ s₁.npages = s.npages ∧
        s₁.lruLink = s.lruLink ∧ (∀ q', s₁.lruHead q' = s.lruHead q') ∧
        (∀ q', s₁.lruCount q' = s.lruCount q') ∧ ∀ q' ≠ q, s₁.lruTail q' = s.lruTail q' := by
    refine ⟨_, rfl, ?_⟩
    split
    · exact ⟨rfl, rfl, fun q' => by simp, fun q' => by simp,
        fun q' hq => Mm.lruTail_setLruTail_of_ne s _ hq⟩
    · exact ⟨rfl, rfl, fun _ => rfl, fun _ => rfl, fun _ _ => rfl⟩
  have htail : s₁.lruTail q = (pp :: L q).getLast? := by
    have hchain := (h.rep q).chain
    rw [hs₁]
    split
    · rename_i hnone
      rw [hchain.eq_nil_iff.2 hnone, Mm.lruTail_setLruTail]
      rfl
    · rename_i hsome
      have hne : L q ≠ [] := fun hnil => hsome (hchain.eq_nil_iff.1 hnil)
      rw [(h.rep q).tail, List.getLast?_cons, List.getLast?_eq_getLast_of_ne_nil hne]
      rfl
  have hdef : lruInsertHead s q pp = (s₁.setLruLink pp (s₁.lruHead q)).setLruHead q (some pp) := by
    rw [lruInsertHead, hs₁]
  rw [hdef]
  refine h.edit ?_ ⟨?_, ?_, ?_⟩ ?_ ?_ ?_ ?_
  · simpa using hnp
  · simp only [Mm.lruLink_addLruCount, Mm.lruLink_setLruHead, Mm.lruLink_setLruLink, hlink, hhead,
      Mm.lruHead_addLruCount, Mm.lruHead_setLruHead]
    exact (h.rep q).chain.push (hno q)
  · simpa using htail
  · simp only [Mm.lruCount_addLruCount, Mm.lruCount_setLruHead, Mm.lruCount_setLruLink, hcount,
      (h.rep q).count, List.length_cons]
    exact (BitVec.ofNat_add ..).symm
  · intro p hp
    rcases List.mem_cons.1 hp with rfl | hp
    · exact hpp
    · exact h.bound q p hp
  · intro p hp q' hq
    rcases List.mem_cons.1 hp with rfl | hp
    · exact hno q'
    · exact fun hp' => hq (h.apart q' q p hp' hp)
  · intro q' _ p hp
    have hne : p ≠ pp := by rintro rfl; exact hno q' hp
    simp only [Mm.lruLink_addLruCount, Mm.lruLink_setLruHead, Mm.lruLink_setLruLink,
      Function.update_of_ne hne, hlink]
  · intro q' hq
    refine ⟨?_, ?_, ?_⟩
    · rw [Mm.lruHead_addLruCount, Mm.lruHead_setLruHead_of_ne _ _ hq, Mm.lruHead_setLruLink, hhead]
    · rw [Mm.lruTail_addLruCount, Mm.lruTail_setLruHead, Mm.lruTail_setLruLink, hrest q' hq]
    · rw [Mm.lruCount_addLruCount_of_ne _ _ hq, Mm.lruCount_setLruHead,
        Mm.lruCount_setLruLink, hcount]

/-- **A page goes to the tail of a list.** -/
theorem insertTail (h : LruInv s L) {pp : ℕ} (hpp : pp < s.npages) (hno : ∀ q, pp ∉ L q)
    (q : LruSide) :
    ∃ t, lruInsertTail s q pp = Except.ok t ∧ (∀ q', t.lruCount q' = s.lruCount q') ∧
      LruInv (t.addLruCount 1 q) (Function.update L q (L q ++ [pp])) := by
  have hbound : ∀ p ∈ L q ++ [pp], p < s.npages := by
    intro p hp
    rcases List.mem_append.1 hp with hp | hp
    · exact h.bound q p hp
    · rw [List.mem_singleton.1 hp]
      exact hpp
  have hnew : ∀ p ∈ L q ++ [pp], ∀ q' ≠ q, p ∉ L q' := by
    intro p hp q' hq
    rcases List.mem_append.1 hp with hp | hp
    · exact fun hp' => hq (h.apart q' q p hp' hp)
    · rw [List.mem_singleton.1 hp]
      exact hno q'
  have hcount : s.lruCount q + 1 = BitVec.ofNat 32 (L q ++ [pp]).length := by
    rw [(h.rep q).count, List.length_append]
    exact (BitVec.ofNat_add ..).symm
  have hchain := (h.rep q).chain
  have htail := (h.rep q).tail
  rcases List.eq_nil_or_concat (L q) with hnil | ⟨l, t, hl⟩
  · -- the page is alone on the list
    rw [hnil] at htail
    refine ⟨((s.setLruTail q (some pp)).setLruHead q (some pp)).setLruLink pp none, ?_, ?_, ?_⟩
    · rw [lruInsertTail, htail]
      rfl
    · intro q'
      simp
    · refine h.edit (by simp) ⟨?_, ?_, ?_⟩ hbound hnew ?_ ?_
      · rw [hnil]
        simp
      · simp
      · simpa using hcount
      · intro q' _ p hp
        have hne : p ≠ pp := by rintro rfl; exact hno q' hp
        simp [Function.update_of_ne hne]
      · intro q' hq
        simp [Mm.lruHead_setLruHead_of_ne _ _ hq, Mm.lruTail_setLruTail_of_ne _ _ hq,
          Mm.lruCount_addLruCount_of_ne _ _ hq]
  · -- the page comes behind the old tail `t`
    rw [List.concat_eq_append] at hl
    rw [hl] at hchain
    have hlink : s.lruLink t = none := hchain.next_of_append
    have hmem : t ∈ L q := by rw [hl]; simp
    have hnt : pp ≠ t := by rintro rfl; exact hno q hmem
    rw [hl, List.getLast?_concat] at htail
    refine ⟨((s.setLruLink t (some pp)).setLruTail q (some pp)).setLruLink pp none, ?_, ?_, ?_⟩
    · rw [lruInsertTail, htail]
      dsimp only
      rw [if_neg (not_not_intro hlink)]
      rfl
    · intro q'
      simp
    · refine h.edit (by simp) ⟨?_, ?_, ?_⟩ hbound hnew ?_ ?_
      · have hbehind := hchain.insertBehind (c := pp) (by rw [← hl]; exact hno q)
        rw [hlink, Function.update_comm hnt] at hbehind
        simpa [hl] using hbehind
      · simp
      · simpa using hcount
      · intro q' hq p hp
        have hne : p ≠ pp := by rintro rfl; exact hno q' hp
        have hne' : p ≠ t := by rintro rfl; exact hq (h.apart q' q p hp hmem)
        simp [Function.update_of_ne hne, Function.update_of_ne hne']
      · intro q' hq
        simp [Mm.lruTail_setLruTail_of_ne _ _ hq, Mm.lruCount_addLruCount_of_ne _ _ hq]

/-! ### Removal -/

/-- The pages that stay on a list. -/
theorem edit_sub (h : LruInv s L) {s' : Mm} {q : LruSide} {l : List ℕ} (hsub : ∀ p ∈ l, p ∈ L q)
    (hnp : s'.npages = s.npages) (hrep : LruRep s' q l)
    (hlink : ∀ q' ≠ q, ∀ p ∈ L q', s'.lruLink p = s.lruLink p)
    (hrest : ∀ q' ≠ q, s'.lruHead q' = s.lruHead q' ∧ s'.lruTail q' = s.lruTail q' ∧
      s'.lruCount q' = s.lruCount q') :
    LruInv s' (Function.update L q l) := by
  refine h.edit hnp hrep (fun p hp => h.bound q p (hsub p hp)) ?_ hlink hrest
  intro p hp q' hq hp'
  exact hq (h.apart q' q p hp' (hsub p hp))

/-- The counter after a page is gone. -/
theorem count_pred (h : LruInv s L) {q : LruSide} {n : ℕ} (hn : (L q).length = n + 1) :
    s.lruCount q + -1 = BitVec.ofNat 32 n := by
  rw [(h.rep q).count, hn, BitVec.ofNat_add, BitVec.add_assoc]
  simp

/-- **The head of a list is removed.** -/
theorem removeHead (h : LruInv s L) {q : LruSide} {p : ℕ} {l : List ℕ} (hl : L q = p :: l) :
    ∃ t, lruHeadRemove s q = Except.ok (p, t) ∧ LruInv t (Function.update L q l) := by
  have hchain := (h.rep q).chain
  have htail := (h.rep q).tail
  have hnd := h.nodup q
  rw [hl] at hchain htail hnd
  obtain ⟨hhead, hrest⟩ := hchain
  have hsub : ∀ x ∈ l, x ∈ L q := fun x hx => by rw [hl]; exact List.mem_cons_of_mem p hx
  have hcount := h.count_pred (q := q) (n := l.length) (by rw [hl]; rfl)
  cases l with
  | nil =>
      have heq : s.lruHead q = s.lruTail q := by rw [hhead, htail]; rfl
      refine ⟨((s.setLruTail q none).setLruHead q (s.lruLink p)).addLruCount (-1) q, ?_, ?_⟩
      · rw [lruHeadRemove, lruRemoveHead, if_pos heq, Mm.lruHead_setLruTail, hhead]
        rfl
      · refine h.edit_sub hsub (by simp) ⟨?_, ?_, ?_⟩ (fun _ _ _ _ => by simp) ?_
        · simpa using hrest
        · simp
        · simpa using hcount
        · intro q' hq
          simp [Mm.lruHead_setLruHead_of_ne _ _ hq, Mm.lruTail_setLruTail_of_ne _ _ hq,
            Mm.lruCount_addLruCount_of_ne _ _ hq]
  | cons r l =>
      have hne : s.lruHead q ≠ s.lruTail q := by
        rw [hhead, htail]
        intro heq
        exact (List.nodup_cons.1 hnd).1 (List.mem_of_getLast? (by simpa using heq.symm))
      refine ⟨(s.setLruHead q (s.lruLink p)).addLruCount (-1) q, ?_, ?_⟩
      · rw [lruHeadRemove, lruRemoveHead, if_neg hne, hhead]
        rfl
      · refine h.edit_sub hsub (by simp) ⟨?_, ?_, ?_⟩ (fun _ _ _ _ => by simp) ?_
        · simpa using hrest
        · simpa using htail
        · simpa using hcount
        · intro q' hq
          simp [Mm.lruHead_setLruHead_of_ne _ _ hq, Mm.lruCount_addLruCount_of_ne _ _ hq]

/-- **The tail of a list is removed.** -/
theorem removeTail (h : LruInv s L) {q : LruSide} {p : ℕ} {l : List ℕ} (hl : L q = l ++ [p]) :
    ∃ t, lruTailRemove s q = Except.ok (some p, t) ∧ LruInv t (Function.update L q l) := by
  have hchain := (h.rep q).chain
  have htail := (h.rep q).tail
  have hnd := h.nodup q
  have hlen := h.length_le q
  rw [hl] at hchain htail hnd hlen
  rw [List.getLast?_concat] at htail
  have hsub : ∀ x ∈ l, x ∈ L q := fun x hx => by rw [hl]; exact List.mem_append_left _ hx
  have hcount := h.count_pred (q := q) (n := l.length) (by rw [hl]; simp)
  have hp : s.lruLink p = none := hchain.next_of_append
  rcases List.eq_nil_or_concat l with rfl | ⟨m, b, rfl⟩
  · have heq : s.lruHead q = s.lruTail q := by rw [htail]; exact hchain.1
    refine ⟨((s.addLruCount (-1) q).setLruHead q none).setLruTail q none, ?_, ?_⟩
    · rw [lruTailRemove, lruRemoveTail, if_pos (by simpa using heq), Mm.lruHead_setLruHead]
      simp [seek, htail]
      rfl
    · refine h.edit_sub hsub (by simp) ⟨?_, ?_, ?_⟩ (fun _ _ _ _ => by simp) ?_
      · simp
      · simp
      · simpa using hcount
      · intro q' hq
        simp [Mm.lruHead_setLruHead_of_ne _ _ hq, Mm.lruTail_setLruTail_of_ne _ _ hq,
          Mm.lruCount_addLruCount_of_ne _ _ hq]
  · -- the loop stops at `p` and remembers `b`
    rw [List.concat_eq_append] at hl hchain hnd hlen hsub hcount ⊢
    have hne : s.lruHead q ≠ s.lruTail q := by
      rw [htail, hchain.head_eq]
      cases m with
      | nil =>
          intro heq
          simp at heq hnd
          exact hnd heq
      | cons a m =>
          intro heq
          simp at heq hnd
          exact hnd.1.2.2 heq
    have hmem : b ∈ L q := by rw [hl]; simp
    have hlinked : ∀ a ∈ m ++ [b], (s.lruLink a == none) = false := by
      intro a ha
      obtain ⟨m₁, m₂, hm⟩ := List.append_of_mem ha
      rw [hm, List.append_assoc, List.cons_append] at hchain
      rw [hchain.next_of_append]
      cases m₂ <;> simp
    have hfound : seek s.lruLink (fun i => s.lruLink i == none) s.npages (s.lruHead q)
        (s.lruHead q) =
        some (some ((m ++ [b]).getLast?.or (s.lruHead q), p)) :=
      hchain.seek_of_found (by simp at hlen ⊢; omega) hlinked (by simp [hp])
    refine ⟨((s.addLruCount (-1) q).setLruLink b none).setLruTail q (some b), ?_, ?_⟩
    · rw [lruTailRemove, lruRemoveTail, if_neg (by simpa using hne)]
      simp only [Mm.lruLink_addLruCount, Mm.lruHead_addLruCount, Mm.npages_addLruCount, hfound,
        Mm.lruTail_addLruCount, htail, List.getLast?_concat]
      rfl
    · refine h.edit_sub hsub (by simp) ⟨?_, ?_, ?_⟩ ?_ ?_
      · simp only [List.append_assoc, List.cons_append, List.nil_append] at hchain
        simpa using hchain.cut
      · simp
      · simpa using hcount
      · intro q' hq x hx
        have hne : x ≠ b := by rintro rfl; exact hq (h.apart q' q x hx hmem)
        simp [Function.update_of_ne hne]
      · intro q' hq
        simp [Mm.lruTail_setLruTail_of_ne _ _ hq, Mm.lruCount_addLruCount_of_ne _ _ hq]

/-- A page that is not on a list is not found there. -/
theorem removeEl_of_notMem (h : LruInv s L) {q : LruSide} {pp : ℕ} (hpp : pp ∉ L q) :
    lruRemoveEl s q pp = Except.ok (false, s) := by
  have hno : ∀ a ∈ L q, (a == pp) = false := by
    intro a ha
    rw [beq_eq_false_iff_ne]
    rintro rfl
    exact hpp ha
  have hseek : seek s.lruLink (· == pp) s.npages (s.lruHead q) (s.lruHead q) = some none :=
    (h.rep q).chain.seek_of_forall (h.length_le q) hno
  rw [lruRemoveEl, hseek]
  rfl

/-- A page that is found is skipped by the page before it; the head of the list by itself. -/
theorem removeEl_of_mem (h : LruInv s L) {q : LruSide} {pp : ℕ} {l m : List ℕ}
    (hl : L q = l ++ pp :: m) :
    lruRemoveEl s q pp = Except.ok (true, s.setLruLink (l.getLastD pp) (s.lruLink pp)) := by
  have hchain := (h.rep q).chain
  have hlen := h.length_le q
  have hnd := h.nodup q
  rw [hl] at hchain hlen hnd
  have hno : ∀ a ∈ l, (a == pp) = false := by
    intro a ha
    rw [beq_eq_false_iff_ne]
    rintro rfl
    exact (nodup_split hnd).1 ha
  have hseek : seek s.lruLink (· == pp) s.npages (s.lruHead q) (s.lruHead q) =
      some (some (l.getLast?.or (s.lruHead q), pp)) :=
    hchain.seek_of_found (by simp at hlen; omega) hno (by simp)
  have hold : l.getLast?.or (s.lruHead q) = some (l.getLastD pp) := by
    rcases List.eq_nil_or_concat l with rfl | ⟨l, b, rfl⟩
    · exact hchain.1
    · simp
  rw [lruRemoveEl, hseek, hold]
  rfl

/-- `lru_remove_el_list` of a page on one of the lists. -/
theorem removeElList_of_mem (h : LruInv s L) {q : LruSide} {pp : ℕ} {l m : List ℕ}
    (hl : L q = l ++ pp :: m) :
    lruRemoveElList s pp =
      Except.ok (true, (s.setLruLink (l.getLastD pp) (s.lruLink pp)).addLruCount (-1) q) := by
  have hfound := h.removeEl_of_mem hl
  cases q with
  | active =>
      rw [lruRemoveElList, hfound]
      rfl
  | inactive =>
      have hno : pp ∉ L .active := by
        intro hpp
        have hside := h.apart .active .inactive pp hpp (by rw [hl]; simp)
        exact absurd hside (by simp)
      rw [lruRemoveElList, h.removeEl_of_notMem hno]
      simp only [bind, Except.bind, hfound]
      rfl

theorem removeElList_of_notMem (h : LruInv s L) {pp : ℕ} (hpp : ∀ q, pp ∉ L q) :
    lruRemoveElList s pp = Except.ok (false, s) := by
  rw [lruRemoveElList, h.removeEl_of_notMem (hpp .active)]
  simp only [bind, Except.bind, h.removeEl_of_notMem (hpp .inactive)]
  rfl

/-- **A page in the middle of a list is removed.** -/
theorem removeEl (h : LruInv s L) {q : LruSide} {b c pp : ℕ} {l m : List ℕ}
    (hl : L q = l ++ b :: pp :: c :: m) :
    LruInv ((s.setLruLink b (s.lruLink pp)).addLruCount (-1) q)
      (Function.update L q (l ++ b :: c :: m)) := by
  have hchain := (h.rep q).chain
  have htail := (h.rep q).tail
  have hmem : b ∈ L q := by rw [hl]; simp
  have hcount := h.count_pred (q := q) (n := (l ++ b :: c :: m).length) (by rw [hl]; simp; omega)
  rw [hl] at hchain htail
  refine h.edit_sub ?_ (by simp) ⟨?_, ?_, ?_⟩ ?_ ?_
  · intro x hx
    rw [hl]
    simp only [List.mem_append, List.mem_cons] at hx ⊢
    tauto
  · simpa using hchain.skip
  · simpa [List.getLast?_append, List.getLast?_cons] using htail
  · simpa using hcount
  · intro q' hq x hx
    have hne : x ≠ b := by rintro rfl; exact hq (h.apart q' q x hx hmem)
    simp [Function.update_of_ne hne]
  · intro q' hq
    simp [Mm.lruCount_addLruCount_of_ne _ _ hq]

end LruInv

/-! ### The nine operations -/

/-- A call of an operation on the lists. -/
inductive LruOp
  | haInsert (pp : ℕ)
  | hiInsert (pp : ℕ)
  | taInsert (pp : ℕ)
  | tiInsert (pp : ℕ)
  | haRemove
  | hiRemove
  | taRemove
  | tiRemove
  | removeElList (pp : ℕ)
  deriving DecidableEq, Repr

/-- The call, with the page it takes off a list. -/
def lruExec (s : Mm) : LruOp → Except Crash (Option ℕ × Mm)
  | .haInsert pp => pure (none, lruHaInsert s pp)
  | .hiInsert pp => pure (none, lruHiInsert s pp)
  | .taInsert pp => do pure (none, ← lruTaInsert s pp)
  | .tiInsert pp => do pure (none, ← lruTiInsert s pp)
  | .haRemove => do
      let (p, s) ← lruHaRemove s
      pure (some p, s)
  | .hiRemove => do
      let (p, s) ← lruHiRemove s
      pure (some p, s)
  | .taRemove => lruTaRemove s
  | .tiRemove => lruTiRemove s
  | .removeElList pp => do
      let (found, s) ← lruRemoveElList s pp
      pure (if found then some pp else none, s)

/-- What the callers promise: a page that is inserted is on neither list, and a page is removed from
an end of a list only when the list has one. -/
def LruOp.Allowed (s : Mm) : LruOp → Prop
  | .haInsert pp | .hiInsert pp | .taInsert pp | .tiInsert pp => pp < s.npages ∧ ¬ s.OnList pp
  | .haRemove | .taRemove => s.lruHead .active ≠ none
  | .hiRemove | .tiRemove => s.lruHead .inactive ≠ none
  | .removeElList _ => True

/-- The operations that keep the representations together: not `lru_ta_insert`, and
`lru_remove_el_list` only of a page that is at neither end of a list. -/
def LruOp.Clean (s : Mm) : LruOp → Prop
  | .taInsert _ => False
  | .removeElList pp => ∀ q, s.lruHead q ≠ some pp ∧ s.lruTail q ≠ some pp
  | _ => True

/-- One operation, with the page it takes off a list. -/
def lruStep (s : Mm) (a : LruOp × Option ℕ) (t : Mm) : Prop :=
  a.1.Allowed s ∧ lruExec s a.1 = Except.ok (a.2, t)

/-- The lists after `lru_init()`, with the counters as they are linked into the kernel. -/
def lruStart (s : Mm) : Mm := lruInit { s with lruActiveCount := 0, lruInactiveCount := 0 }

/-- **An operation is carried out as its name says**: it ends, the lists it leaves are represented
well, and the page it has taken off is on neither. -/
def LruDone (s : Mm) (op : LruOp) : Prop :=
  ∃ gone t, lruExec s op = Except.ok (gone, t) ∧ LruOk t ∧ ∀ p, gone = some p → ¬ t.OnList p

/-! ### One operation -/

namespace LruInv

variable {s : Mm} {L : LruSide → List ℕ}

theorem ok (h : LruInv s L) : LruOk s := ⟨L, h⟩

/-- A page that is on no list of the invariant is not visited. -/
theorem not_onList (h : LruInv s L) {pp : ℕ} (hpp : ∀ q, pp ∉ L q) : ¬ s.OnList pp := by
  rw [h.onList_iff]
  rintro ⟨q, hq⟩
  exact hpp q hq

/-- What was taken off one list is on neither. -/
theorem not_mem_update (h : LruInv s L) {q : LruSide} {p : ℕ} {l : List ℕ} (hp : p ∈ L q)
    (hl : p ∉ l) :
    ∀ q', p ∉ Function.update L q l q' := by
  intro q'
  by_cases hq : q' = q
  · subst hq
    rwa [Function.update_self]
  · rw [Function.update_of_ne hq]
    exact fun hp' => hq (h.apart q' q p hp' hp)

theorem done_of_removeHead (h : LruInv s L) {q : LruSide} (hne : s.lruHead q ≠ none) :
    ∃ p t, lruHeadRemove s q = Except.ok (p, t) ∧ LruOk t ∧ ¬ t.OnList p := by
  cases hl : L q with
  | nil => exact absurd ((h.rep q).chain.eq_nil_iff.1 hl) hne
  | cons p l =>
      obtain ⟨t, ht, hinv⟩ := h.removeHead hl
      have hnd := h.nodup q
      rw [hl] at hnd
      refine ⟨p, t, ht, hinv.ok, hinv.not_onList ?_⟩
      exact h.not_mem_update (by rw [hl]; simp) (List.nodup_cons.1 hnd).1

theorem done_of_removeTail (h : LruInv s L) {q : LruSide} (hne : s.lruHead q ≠ none) :
    ∃ p t, lruTailRemove s q = Except.ok (some p, t) ∧ LruOk t ∧ ¬ t.OnList p := by
  rcases List.eq_nil_or_concat (L q) with hl | ⟨l, p, hl⟩
  · exact absurd ((h.rep q).chain.eq_nil_iff.1 hl) hne
  · rw [List.concat_eq_append] at hl
    obtain ⟨t, ht, hinv⟩ := h.removeTail hl
    have hnd := h.nodup q
    rw [hl] at hnd
    refine ⟨p, t, ht, hinv.ok, hinv.not_onList ?_⟩
    exact h.not_mem_update (by rw [hl]; simp) (nodup_split hnd).1

/-- A page that is at neither end of its list has one before it and one behind it. -/
theorem mem_middle (h : LruInv s L) {q : LruSide} {pp : ℕ} (hpp : pp ∈ L q)
    (hhead : s.lruHead q ≠ some pp) (htail : s.lruTail q ≠ some pp) :
    ∃ l b c m, L q = l ++ b :: pp :: c :: m := by
  obtain ⟨l, m, hl⟩ := List.append_of_mem hpp
  have hchain := (h.rep q).chain
  have hlast := (h.rep q).tail
  rw [hl] at hchain hlast
  rcases List.eq_nil_or_concat l with rfl | ⟨l, b, rfl⟩
  · exact absurd hchain.1 hhead
  · cases m with
    | nil => exact absurd (by simpa using hlast) htail
    | cons c m => exact ⟨l, b, c, m, by rw [hl]; simp⟩

/-- `lru_remove_el_list` of a page that is at neither end of a list. -/
theorem done_of_removeElList (h : LruInv s L) {pp : ℕ}
    (hends : ∀ q, s.lruHead q ≠ some pp ∧ s.lruTail q ≠ some pp) :
    ∃ found t, lruRemoveElList s pp = Except.ok (found, t) ∧ LruOk t ∧
      (found = true → ¬ t.OnList pp) := by
  by_cases hpp : ∃ q, pp ∈ L q
  · obtain ⟨q, hq⟩ := hpp
    obtain ⟨l, b, c, m, hl⟩ := h.mem_middle hq (hends q).1 (hends q).2
    have hl' : L q = (l ++ [b]) ++ pp :: c :: m := by rw [hl]; simp
    have hrun := h.removeElList_of_mem hl'
    have hinv := h.removeEl hl
    have hnd := h.nodup q
    rw [List.getLastD_concat] at hrun
    refine ⟨true, _, hrun, hinv.ok, fun _ => hinv.not_onList (h.not_mem_update hq ?_)⟩
    rw [hl'] at hnd
    have hsplit := nodup_split hnd
    simp only [List.mem_append, not_or, List.mem_cons] at hsplit ⊢
    tauto
  · have hno : ∀ q, pp ∉ L q := fun q hq => hpp ⟨q, hq⟩
    exact ⟨false, s, h.removeElList_of_notMem hno, h.ok, by simp⟩

/-- **A clean operation.** -/
theorem done (h : LruInv s L) {op : LruOp} (hallow : op.Allowed s) (hclean : op.Clean s) :
    LruDone s op := by
  have hfresh : ∀ pp, ¬ s.OnList pp → ∀ q, pp ∉ L q := by
    intro pp hpp q hq
    exact hpp (h.onList_iff.2 ⟨q, hq⟩)
  cases op with
  | haInsert pp =>
      exact ⟨none, _, rfl, (h.insertHead hallow.1 (hfresh pp hallow.2) .active).ok, by simp⟩
  | hiInsert pp =>
      exact ⟨none, _, rfl, (h.insertHead hallow.1 (hfresh pp hallow.2) .inactive).ok, by simp⟩
  | taInsert pp => exact hclean.elim
  | tiInsert pp =>
      obtain ⟨t, ht, -, hinv⟩ := h.insertTail hallow.1 (hfresh pp hallow.2) .inactive
      refine ⟨none, t.addLruCount 1 .inactive, ?_, hinv.ok, by simp⟩
      rw [lruExec, lruTiInsert, ht]
      rfl
  | haRemove =>
      obtain ⟨p, t, ht, hok, hgone⟩ := h.done_of_removeHead hallow
      refine ⟨some p, t, ?_, hok, ?_⟩
      · rw [lruExec, lruHaRemove, ht]
        rfl
      · rintro _ ⟨⟩
        exact hgone
  | hiRemove =>
      obtain ⟨p, t, ht, hok, hgone⟩ := h.done_of_removeHead hallow
      refine ⟨some p, t, ?_, hok, ?_⟩
      · rw [lruExec, lruHiRemove, ht]
        rfl
      · rintro _ ⟨⟩
        exact hgone
  | taRemove =>
      obtain ⟨p, t, ht, hok, hgone⟩ := h.done_of_removeTail hallow
      exact ⟨some p, t, ht, hok, by rintro _ ⟨⟩; exact hgone⟩
  | tiRemove =>
      obtain ⟨p, t, ht, hok, hgone⟩ := h.done_of_removeTail hallow
      exact ⟨some p, t, ht, hok, by rintro _ ⟨⟩; exact hgone⟩
  | removeElList pp =>
      obtain ⟨found, t, ht, hok, hgone⟩ := h.done_of_removeElList hclean
      refine ⟨if found then some pp else none, t, ?_, hok, ?_⟩
      · rw [lruExec, ht]
        rfl
      · intro p hp
        cases found with
        | false => simp at hp
        | true =>
            cases hp
            exact hgone rfl

/-- `lru_ta_insert` leaves the counters wrong. -/
theorem not_done_of_taInsert (h : LruInv s L) {pp : ℕ} (hallow : (LruOp.taInsert pp).Allowed s) :
    ¬ LruDone s (.taInsert pp) := by
  rintro ⟨gone, t, ht, ⟨L', h'⟩, -⟩
  have hfresh : ∀ q, pp ∉ L q := fun q hq => hallow.2 (h.onList_iff.2 ⟨q, hq⟩)
  obtain ⟨t₁, ht₁, hcount, hinv⟩ := h.insertTail hallow.1 hfresh .inactive
  rw [lruExec, lruTaInsert, ht₁] at ht
  cases ht
  -- the active list is what it was, and is counted one longer
  have hold := (hinv.rep .active).chain
  rw [Function.update_of_ne (by simp)] at hold
  have hsame : L' .active = L .active := by
    refine (h'.rep .active).chain.unique ?_
    simpa using hold
  have hlen := h'.count_toNat .active
  have hle := h.length_le .active
  have hnp := s.npages_le
  rw [hsame, Mm.lruCount_addLruCount, hcount, BitVec.toNat_add, h.count_toNat] at hlen
  simp at hlen
  omega

/-- `lru_remove_el_list` of the head of a list leaves the page where it is. -/
theorem not_done_of_head (h : LruInv s L) {q : LruSide} {pp : ℕ} {m : List ℕ} (hl : L q = pp :: m) :
    ¬ LruDone s (.removeElList pp) := by
  rintro ⟨gone, t, ht, -, hgone⟩
  rw [lruExec, h.removeElList_of_mem (l := []) hl] at ht
  cases ht
  have hhead : s.lruHead q = some pp := by
    rw [(h.rep q).chain.head_eq, hl]
    rfl
  refine hgone pp rfl ⟨q, ?_⟩
  rw [Mm.lruHead_addLruCount, Mm.lruHead_setLruLink, hhead]
  exact Visits.here pp

/-- `lru_remove_el_list` of the tail of a list leaves the tail pointing at the page. -/
theorem not_done_of_tail (h : LruInv s L) {q : LruSide} {b pp : ℕ} {l : List ℕ}
    (hl : L q = l ++ [b, pp]) : ¬ LruDone s (.removeElList pp) := by
  rintro ⟨gone, t, ht, ⟨L', h'⟩, -⟩
  have hl' : L q = (l ++ [b]) ++ pp :: [] := by rw [hl]; simp
  have hchain := (h.rep q).chain
  have htail := (h.rep q).tail
  have hnd := h.nodup q
  rw [hl] at hchain htail hnd
  rw [lruExec, h.removeElList_of_mem hl', List.getLastD_concat] at ht
  cases ht
  have hsame : L' q = l ++ [b] := by
    refine (h'.rep q).chain.unique ?_
    simpa using hchain.skip
  have htail' := (h'.rep q).tail
  rw [hsame, Mm.lruTail_addLruCount, Mm.lruTail_setLruLink, htail] at htail'
  rw [hl] at hl'
  rw [hl'] at hnd
  simp only [List.getLast?_append, List.getLast?_cons] at htail'
  exact (nodup_split hnd).1 (by simp at htail'; simp [htail'])

/-- **An operation is carried out as its name says exactly when it is clean.** -/
theorem done_iff (h : LruInv s L) {op : LruOp} (hallow : op.Allowed s) :
    LruDone s op ↔ op.Clean s := by
  refine ⟨fun hdone => ?_, h.done hallow⟩
  cases op with
  | taInsert pp => exact h.not_done_of_taInsert hallow hdone
  | removeElList pp =>
      have hhead : ∀ q, s.lruHead q ≠ some pp := by
        intro q hq
        obtain ⟨m, hl, -⟩ := chain_some.1 (hq ▸ (h.rep q).chain)
        exact h.not_done_of_head hl hdone
      refine fun q => ⟨hhead q, fun hq => ?_⟩
      rw [(h.rep q).tail] at hq
      rcases List.eq_nil_or_concat (L q) with hnil | ⟨l, p, hl⟩
      · rw [hnil] at hq
        simp at hq
      · rw [List.concat_eq_append] at hl
        rw [hl, List.getLast?_concat, Option.some_inj] at hq
        subst hq
        rcases List.eq_nil_or_concat l with rfl | ⟨l, b, rfl⟩
        · exact h.not_done_of_head hl hdone
        · exact h.not_done_of_tail (l := l) (b := b) (by rw [hl]; simp) hdone
  | _ => exact True.intro

end LruInv

/-! ### Runs -/

/-- Both lists are empty after `lru_init`, whose loop threads the pages of the third one. -/
theorem lruInv_start (s : Mm) : LruInv (lruStart s) fun _ => [] := by
  have hempty : ∀ q, (lruStart s).lruHead q = none ∧ (lruStart s).lruTail q = none ∧
      (lruStart s).lruCount q = 0 := by
    intro q
    unfold lruStart lruInit
    refine List.foldlRecOn (motive := fun t : Mm => t.lruHead q = none ∧ t.lruTail q = none ∧
      t.lruCount q = 0) _ _ ?_ ?_
    · cases q <;> exact ⟨rfl, rfl, rfl⟩
    · intro t ht i _
      dsimp only
      split <;> cases q <;> exact ht
  refine ⟨fun q => ?_, by simp, by simp⟩
  obtain ⟨hhead, htail, hcount⟩ := hempty q
  exact ⟨hhead, htail, hcount⟩

theorem lruOk_step {s t : Mm} {a : LruOp × Option ℕ} (h : LruOk s) (hclean : a.1.Clean s)
    (hst : lruStep s a t) : LruOk t := by
  obtain ⟨L, hinv⟩ := h
  obtain ⟨gone, u, hu, hok, -⟩ := hinv.done hst.1 hclean
  have heq := hu.symm.trans hst.2
  cases heq
  exact hok

/-- **The representation is kept** along every run of clean operations, and an operation that the
callers may make next is carried out as its name says exactly when it is clean. -/
theorem lru_lists_kept {s₀ s : Mm} {tr : List (Mm × (LruOp × Option ℕ))}
    (hr : Run lruStep (lruStart s₀) tr s) (hG : Meets (fun s a => a.1.Clean s) tr) :
    LruOk s ∧ ∀ op : LruOp, op.Allowed s → (LruDone s op ↔ op.Clean s) := by
  have h := hr.invariant (fun _ _ _ (h : LruOk _) hG hst => lruOk_step h hG hst)
    ⟨_, lruInv_start s₀⟩ hG
  refine ⟨h, fun op hallow => ?_⟩
  obtain ⟨L, hinv⟩ := h
  exact hinv.done_iff hallow

/-- The lists of a machine with eight pages. -/
def lruEight : Mm := lruStart (Mm.boot 8 frames_eight false fun _ _ => 0)

/-- A page goes to the active list and comes off it again at the tail. -/
theorem lru_lists_kept_first :
    ∃ tr s, Run lruStep lruEight tr s ∧ Meets (fun s a => a.1.Clean s) tr ∧ LruOk s ∧
      s.OnList 7 ∧ LruDone s .taRemove := by
  have hinv := lruInv_start (Mm.boot 8 frames_eight false fun _ _ => 0)
  have hinv' := hinv.insertHead (show 7 < _ from by decide) (by simp) .active
  have hrun : Run lruStep lruEight ([] ++ [(lruEight, (LruOp.haInsert 7, none))])
      (lruHaInsert lruEight 7) :=
    (Run.nil _).snoc ⟨⟨by decide, hinv.not_onList (by simp)⟩, rfl⟩
  have hmeets : Meets (fun s (a : LruOp × Option ℕ) => a.1.Clean s)
      ([] ++ [(lruEight, (LruOp.haInsert 7, none))]) := by
    intro p hp
    rw [List.nil_append, List.mem_singleton] at hp
    subst hp
    exact True.intro
  have hon : (lruHaInsert lruEight 7).OnList 7 := hinv'.onList_iff.2 ⟨.active, by simp⟩
  obtain ⟨hok, hdone⟩ := lru_lists_kept hrun hmeets
  have hne : (lruHaInsert lruEight 7).lruHead .active ≠ none := Option.some_ne_none 7
  exact ⟨_, _, hrun, hmeets, hok, hon, (hdone .taRemove hne).2 True.intro⟩

/-- **A page that stays on its list**: it goes to the active list, `lru_remove_el_list` reports that
it has removed it, and it is still the head, with a counter of 0. -/
theorem lru_page_left_behind :
    ∃ tr s, Run lruStep lruEight tr s ∧
      tr.map Prod.snd = [(LruOp.haInsert 7, none), (LruOp.removeElList 7, some 7)] ∧
      s.OnList 7 ∧ s.lruHead .active = some 7 ∧ s.lruActiveCount = 0 ∧ ¬ LruOk s := by
  have hinv := lruInv_start (Mm.boot 8 frames_eight false fun _ _ => 0)
  have hinv' : LruInv (lruHaInsert lruEight 7) _ :=
    hinv.insertHead (show 7 < _ from by decide) (by simp) .active
  have hfound := @LruInv.removeElList_of_mem _ _ hinv' .active 7 [] [] (by simp)
  have hstep : lruExec (lruHaInsert lruEight 7) (.removeElList 7) = Except.ok (some 7,
      ((lruHaInsert lruEight 7).setLruLink 7 ((lruHaInsert lruEight 7).lruLink 7)).addLruCount
        (-1) .active) := by
    rw [lruExec, hfound]
    rfl
  have hfirst : Run lruStep lruEight ([] ++ [(lruEight, (LruOp.haInsert 7, none))])
      (lruHaInsert lruEight 7) :=
    (Run.nil _).snoc ⟨⟨by decide, hinv.not_onList (by simp)⟩, rfl⟩
  have hcount := hinv'.count_pred (q := .active) (n := 0) (by simp)
  refine ⟨_, _, hfirst.snoc (a := (LruOp.removeElList 7, some 7)) ⟨True.intro, hstep⟩, rfl,
    ⟨.active, Visits.here 7⟩, rfl, hcount, ?_⟩
  rintro ⟨L, hL⟩
  -- a list that starts at page 7 is not of length 0
  have hlen := hL.count_toNat .active
  rw [Mm.lruCount_addLruCount, Mm.lruCount_setLruLink, hcount] at hlen
  have hnil : L .active = [] := List.eq_nil_of_length_eq_zero hlen.symm
  have hhead := (hL.rep .active).chain
  rw [hnil, chain_nil] at hhead
  exact Option.some_ne_none 7 hhead

end Jos
