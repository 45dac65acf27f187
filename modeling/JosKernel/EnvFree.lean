/-
**What `env_free` gives back.**

The loop of `env_free` takes every present entry of the directory for a page table. Below a 4 MB
entry it then reads the first 4 KB of the program's own page as if they were entries. Where no word
of them has the lowest bit set nothing happens, and the reference of the 4 MB entry is dropped once.

The references that the entries of an environment hold are counted in the state itself, so that they
get less with every entry that goes.

Main definitions:

* `Jos.Mm.uses` — the references that an environment holds to a frame, through its entries, its page
  tables and its directory;
* `Jos.FreeReady` — an environment with user slots of any kind, whose references are all counted;
* `Jos.Mm.BlankHeads` — the first 4 KB of its 4 MB pages hold no word that looks present;
* `Jos.Drops` — what every step of the release keeps: references and uses go together.

Main results:

* `Jos.FreeReady.dropped` — one entry goes, with its reference;
* `Jos.freePde_drops`, `Jos.freePdes_drops` — the loop of `env_free`;
* `Jos.FreeReady.freed` — the directory and the frame of the slot.
-/

import Mathlib.Algebra.BigOperators.Group.Finset.Basic
import Mathlib.Algebra.Order.BigOperators.Group.Finset
import JosKernel.BlockRefs

set_option relaxedAutoImplicit false
set_option autoImplicit false

namespace Jos

open LinkedList Outcome

/-! ### The references of an environment -/

instance (m : Mm) (d i : ℕ) : Decidable (m.HasTable d i) := instDecidableAnd

/-- The slot `i` leads to the page table in the frame `g`. -/
def Mm.tableIn (m : Mm) (d i g : ℕ) : ℕ := if m.HasTable d i ∧ pgnum (m.word d i) = g then 1 else 0

/-- The references of one slot: those of its entries, and the one of the slot to its page table. -/
def Mm.slotUses (m : Mm) (d i g : ℕ) : ℕ := m.refsIn d i g + m.tableIn d i g

/-- **The references that the environment with the directory `d` holds to the frame `g`.** -/
def Mm.uses (m : Mm) (d g : ℕ) : ℕ :=
  (∑ i ∈ Finset.range (pdx uTop), m.slotUses d i g) + if g = d then 1 else 0

section Uses

variable {m m' : Mm} {d i g : ℕ}

theorem slotUses_le_uses (hi : i < pdx uTop) : m.slotUses d i g ≤ m.uses d g := by
  have hle := Finset.single_le_sum (f := fun i => m.slotUses d i g) (fun _ _ => Nat.zero_le _)
    (Finset.mem_range.2 hi)
  exact Nat.le_trans hle (Nat.le_add_right _ _)

/-- One slot has changed. -/
theorem uses_slot (hi : i < pdx uTop)
    (hother : ∀ k < pdx uTop, k ≠ i → m'.slotUses d k g = m.slotUses d k g) :
    m'.uses d g + m.slotUses d i g = m.uses d g + m'.slotUses d i g := by
  have hmem := Finset.mem_range.2 hi
  have hrest : ∑ k ∈ (Finset.range (pdx uTop)).erase i, m'.slotUses d k
      g = ∑ k ∈ (Finset.range (pdx uTop)).erase i, m.slotUses d k g := by
    refine Finset.sum_congr rfl fun k hk => ?_
    obtain ⟨hne, hlt⟩ := Finset.mem_erase.1 hk
    exact hother k (Finset.mem_range.1 hlt) hne
  have hm := Finset.add_sum_erase (Finset.range (pdx uTop)) (fun k => m.slotUses d k g) hmem
  have hm' := Finset.add_sum_erase (Finset.range (pdx uTop)) (fun k => m'.slotUses d k g) hmem
  rw [Mm.uses, Mm.uses, ← hm, ← hm', hrest]
  omega

/-- The references of a slot depend on its word and on the words of its page table. -/
theorem slotUses_congr (hword : m'.word d i = m.word d i)
    (htable : m.HasTable d i → ∀ j < 1024, m'.word (pgnum (m.word d i)) j =
      m.word (pgnum (m.word d i)) j) :
    m'.slotUses d i g = m.slotUses d i g := by
  have hhas : m'.HasTable d i ↔ m.HasTable d i := by
    unfold Mm.HasTable
    rw [hword]
  have hin : m'.tableIn d i g = m.tableIn d i g := by simp only [Mm.tableIn, hhas, hword]
  rw [Mm.slotUses, Mm.slotUses, hin, Mm.refsIn, Mm.refsIn, hword]
  by_cases hP : isPresent (m.word d i) = true
  · rw [if_pos hP, if_pos hP]
    by_cases hH : isHuge (m.word d i) = true
    · rw [if_pos hH, if_pos hH]
    · rw [if_neg hH, if_neg hH]
      have hfilter : ((Finset.range 1024).filter fun j => Maps (m'.word (pgnum (m.word d i)) j) g) =
          (Finset.range 1024).filter fun j => Maps (m.word (pgnum (m.word d i)) j) g := by
        refine Finset.filter_congr fun j hj => ?_
        rw [htable ⟨hP, by simpa using hH⟩ j (Finset.mem_range.1 hj)]
      rw [hfilter]
  · rw [if_neg hP, if_neg hP]

theorem slotUses_absent (h : isPresent (m.word d i) = false) : m.slotUses d i g = 0 := by
  rw [Mm.slotUses, Mm.refsIn, Mm.tableIn, if_neg (by rw [h]; exact Bool.false_ne_true), if_neg]
  rintro ⟨⟨hP, -⟩, -⟩
  rw [h] at hP
  cases hP

theorem slotUses_huge (hP : isPresent (m.word d i) = true) (hH : isHuge (m.word d i) = true) :
    m.slotUses d i g = if g = pgnum (m.word d i) then 1 else 0 := by
  have hno : ¬ (m.HasTable d i ∧ pgnum (m.word d i) = g) := by
    rintro ⟨ht, -⟩
    rw [ht.2] at hH
    exact nomatch hH
  rw [Mm.slotUses, Mm.refsIn, Mm.tableIn, if_pos hP, if_pos hH, if_neg hno, Nat.add_zero]
  by_cases hg : g = pgnum (m.word d i)
  · rw [if_pos hg, if_pos hg.symm]
  · rw [if_neg hg, if_neg (Ne.symm hg)]

theorem slotUses_table (ht : m.HasTable d i) :
    m.slotUses d i g =
      ((Finset.range 1024).filter fun j => Maps (m.word (pgnum (m.word d i)) j) g).card +
      if g = pgnum (m.word d i) then 1 else 0 := by
  rw [Mm.slotUses, Mm.refsIn, Mm.tableIn, if_pos ht.1,
    if_neg (by rw [ht.2]; exact Bool.false_ne_true)]
  by_cases hg : g = pgnum (m.word d i)
  · rw [if_pos hg, if_pos ⟨ht, hg.symm⟩]
  · rw [if_neg hg, if_neg fun hc => hg hc.2.symm]

/-- The frames that a slot refers to. -/
theorem uses_table (hi : i < pdx uTop) (ht : m.HasTable d i) :
    0 < m.uses d (pgnum (m.word d i)) := by
  refine Nat.lt_of_lt_of_le ?_ (slotUses_le_uses hi)
  rw [slotUses_table ht, if_pos rfl]
  exact Nat.succ_pos _

theorem uses_big (hi : i < pdx uTop) (hP : isPresent (m.word d i) = true)
    (hH : isHuge (m.word d i) = true) :
    0 < m.uses d (pgnum (m.word d i)) := by
  refine Nat.lt_of_lt_of_le ?_ (slotUses_le_uses hi)
  rw [slotUses_huge hP hH, if_pos rfl]
  exact Nat.one_pos

theorem uses_pte (hi : i < pdx uTop) (ht : m.HasTable d i) {j : ℕ} (hj : j < 1024)
    (hmap : Maps (m.word (pgnum (m.word d i)) j) g) :
    0 < m.uses d g := by
  refine Nat.lt_of_lt_of_le ?_ (slotUses_le_uses hi)
  rw [slotUses_table ht]
  exact Nat.lt_of_lt_of_le (Finset.card_pos.2 ⟨j, Finset.mem_filter.2
    ⟨Finset.mem_range.2 hj, hmap⟩⟩) (Nat.le_add_right _ _)

/-- An entry of a page table is cleared. -/
theorem slotUses_clear {t j f : ℕ} (ht : m.HasTable d i) (hpg : pgnum (m.word d i) = t)
    (hword : m'.word d i = m.word d i) (hj : j < 1024)
    (hptes : ∀ k, m'.word t k = if k = j then 0 else m.word t k) (hmap : Maps (m.word t j) f) :
    m.slotUses d i g = m'.slotUses d i g + if g = f then 1 else 0 := by
  have ht' : m'.HasTable d i := by
    unfold Mm.HasTable
    rw [hword]
    exact ht
  rw [slotUses_table ht, slotUses_table ht', hword, hpg]
  have hcard : ((Finset.range 1024).filter fun k => Maps (m.word t k) g).card =
      ((Finset.range 1024).filter fun k => Maps (m'.word t k) g).card + if g = f then 1 else 0 := by
    have hnot : j ∉ (Finset.range 1024).filter fun k => Maps (m'.word t k) g := by
      intro hc
      have hmap' := (Finset.mem_filter.1 hc).2
      rw [hptes, if_pos rfl] at hmap'
      exact not_maps_zero g hmap'
    by_cases hg : g = f
    · subst hg
      rw [if_pos rfl, ← Finset.card_insert_of_notMem hnot]
      refine congrArg Finset.card (Finset.ext fun k => ?_)
      rw [Finset.mem_insert, Finset.mem_filter, Finset.mem_filter, hptes]
      by_cases hk : k = j
      · subst hk
        rw [if_pos rfl]
        exact ⟨fun _ => Or.inl rfl, fun _ => ⟨Finset.mem_range.2 hj, hmap⟩⟩
      · rw [if_neg hk]
        exact ⟨Or.inr, fun hc => hc.resolve_left hk⟩
    · rw [if_neg hg, Nat.add_zero]
      refine congrArg Finset.card (Finset.filter_congr fun k _ => ?_)
      rw [hptes]
      split
      · rename_i hk
        rw [hk]
        exact ⟨fun hc => absurd (hc.2.symm.trans hmap.2) hg, fun hc => absurd hc (not_maps_zero g)⟩
      · exact Iff.rfl
  rw [hcard]
  omega

end Uses

/-! ### The setting -/

/-- **An environment whose references are counted.** Its user slots are empty, lead to page tables
of their own, or are 4 MB pages; the entries of the page tables are not present, or map single
frames. The frame in which the slot of the environment lies is in use as well, and is not one of
these. -/
structure FreeReady (s : Vm) (e d : ℕ) (live : List Block) (l : List ℕ) : Prop where
  inv : AllocInv s.mm live l
  steady : Steady s.mm l
  small : s.mm.npages ≤ 65536
  dir : s.pgdir e = some d
  root : pageBlock d ∈ live
  slot : pageBlock (s.envFrame e) ∈ live
  slotDir : s.envFrame e ≠ d
  table : ∀ i < pdx uTop, s.mm.HasTable d i → pageBlock (pgnum (s.mm.word d i)) ∈ live ∧
    pgnum (s.mm.word d i) ≠ d ∧
    pgnum (s.mm.word d i) ≠ s.envFrame e
  apart : ∀ i < pdx uTop, ∀ j < pdx uTop, s.mm.HasTable d i → s.mm.HasTable d j →
    pgnum (s.mm.word d i) = pgnum (s.mm.word d j) → i = j
  pte : ∀ i < pdx uTop, s.mm.HasTable d i → ∀ j < 1024,
    isPresent (s.mm.word (pgnum (s.mm.word d i)) j) = true →
    ∃ b ∈ live, b.huge = false ∧ b.start = pgnum (s.mm.word (pgnum (s.mm.word d i)) j) ∧
      b.start ≠ d ∧ b.start ≠ s.envFrame e ∧
      ∀ k < pdx uTop, s.mm.HasTable d k → b.start ≠ pgnum (s.mm.word d k)
  big : ∀ i < pdx uTop, isPresent (s.mm.word d i) = true → isHuge (s.mm.word d i) = true →
    ∃ b ∈ live, b.huge = true ∧ b.start = pgnum (s.mm.word d i) ∧ ∀ j, b.Has j → j ≠ b.start →
    s.ref j = 0
  counted : ∀ g, s.mm.uses d g ≤ (s.ref g).toNat

/-- **The first 4 KB of every 4 MB page hold no word that looks like a present entry.** -/
def Mm.BlankHeads (m : Mm) (d : ℕ) : Prop :=
  ∀ i < pdx uTop, isPresent (m.word d i) = true → isHuge (m.word d i) = true →
    ∀ j < 1024, isPresent (m.word (pgnum (m.word d i)) j) = false

/-- **References have been dropped together with what held them.** A block is free when that was its
last reference, and nothing else is. -/
structure Drops (s s' : Vm) (d : ℕ) (live live' : List Block) (l l' : List ℕ) : Prop where
  npages : s'.mm.npages = s.mm.npages
  space : SameSpaces s s'
  sum : ∀ g, (s'.ref g).toNat + s.mm.uses d g = (s.ref g).toNat + s'.mm.uses d g
  less : ∀ g, s'.mm.uses d g ≤ s.mm.uses d g
  sub : ∀ b ∈ live', b ∈ live
  gone : ∀ b ∈ live, b ∉ live' → 0 < s.mm.uses d b.start ∧ s'.ref b.start = 0
  kept : ∀ b ∈ live', s'.ref b.start = 0 → s.ref b.start = 0
  list : ∀ g, g ∈ l' ↔ g ∈ l ∨ ∃ b ∈ live, b ∉ live' ∧ b.Has g
  blank : s.mm.BlankHeads d → s'.mm.BlankHeads d

namespace Drops

variable {s s₁ s' : Vm} {d : ℕ} {live live₁ live' : List Block} {l l₁ l' : List ℕ}

theorem refl (s : Vm) (d : ℕ) (live : List Block) (l : List ℕ) : Drops s s d live live l l where
  npages := rfl
  space := ⟨rfl, rfl, rfl, rfl⟩
  sum _ := rfl
  less _ := Nat.le_refl _
  sub _ hb := hb
  gone _ hb hnot := absurd hb hnot
  kept _ _ href := href
  list g := by
    refine ⟨Or.inl, ?_⟩
    rintro (hg | ⟨b, hb, hnot, -⟩)
    · exact hg
    · exact absurd hb hnot
  blank h := h

theorem trans (h : Drops s s₁ d live live₁ l l₁) (h' : Drops s₁ s' d live₁ live' l₁ l') :
    Drops s s' d live live' l l' where
  npages := h'.npages.trans h.npages
  space := h.space.trans h'.space
  sum g := by
    have hs := h.sum g
    have hs' := h'.sum g
    omega
  less g := Nat.le_trans (h'.less g) (h.less g)
  sub b hb := h.sub b (h'.sub b hb)
  gone b hb hnot := by
    by_cases hb₁ : b ∈ live₁
    · obtain ⟨hpos, href⟩ := h'.gone b hb₁ hnot
      exact ⟨Nat.lt_of_lt_of_le hpos (h.less _), href⟩
    · obtain ⟨hpos, href⟩ := h.gone b hb hb₁
      refine ⟨hpos, BitVec.eq_of_toNat_eq ?_⟩
      have hs' := h'.sum b.start
      have hle := h'.less b.start
      rw [href] at hs'
      change _ = 0
      change _ = 0 + _ at hs'
      omega
  kept b hb href := h.kept b (h'.sub b hb) (h'.kept b hb href)
  list g := by
    rw [h'.list, h.list]
    constructor
    · rintro ((hg | ⟨b, hb, hnot, hhas⟩) | ⟨b, hb, hnot, hhas⟩)
      · exact Or.inl hg
      · exact Or.inr ⟨b, hb, fun hc => hnot (h'.sub b hc), hhas⟩
      · exact Or.inr ⟨b, h.sub b hb, hnot, hhas⟩
    · rintro (hg | ⟨b, hb, hnot, hhas⟩)
      · exact Or.inl (Or.inl hg)
      · by_cases hb₁ : b ∈ live₁
        · exact Or.inr ⟨b, hb₁, hnot, hhas⟩
        · exact Or.inl (Or.inr ⟨b, hb, hb₁, hhas⟩)
  blank hs := h'.blank (h.blank hs)

end Drops

namespace FreeReady

variable {s s' : Vm} {e d : ℕ} {live live' : List Block} {l l' : List ℕ} {b : Block} {p : PtePtr}

section Dropped

variable (h : FreeReady s e d live l) (hb : b ∈ live) (hdrop : RefDropped s s' live live' l l' b p)
  (hsum : ∀ g, s.mm.uses d g = s'.mm.uses d g + if g = b.start then 1 else 0)

include h hdrop hsum

/-- The counter of the block does not wrap round. -/
theorem dropped_ref : (s'.ref b.start).toNat + 1 = (s.ref b.start).toNat := by
  have hcount := h.counted b.start
  rw [hsum b.start, if_pos rfl] at hcount
  have hlt := (s.ref b.start).isLt
  have h1 : (1 : BitVec 16).toNat = 1 := rfl
  rw [hdrop.ref, BitVec.toNat_sub, h1]
  omega

/-- A block that is still referred to has not lost its last reference. -/
theorem dropped_needs {c : Block} (hc : c ∈ live) (huse : 0 < s'.mm.uses d c.start) :
    c ∈ live' := by
  by_cases hcb : c = b
  · subst hcb
    rcases hdrop.blocks with ⟨-, heq, -⟩ | ⟨href, -, -⟩
    · rwa [heq]
    · have hcount := h.counted c.start
      rw [hsum c.start, if_pos rfl, href] at hcount
      change _ ≤ 1 at hcount
      omega
  · exact hdrop.stays hc hcb

/-- A page table of the new state was one before. -/
theorem dropped_table (hbd : b.start ≠ d) {i : ℕ} (hi : i < pdx uTop) (ht : s'.mm.HasTable d i) :
    s.mm.HasTable d i ∧ s'.mm.word d i = s.mm.word d i ∧
      pageBlock (pgnum (s.mm.word d i)) ∈ live' := by
  have heq := hdrop.word_of_present (hdrop.stays_page h.root hbd) ht.1
  have huse := uses_table hi ht
  rw [heq] at huse
  have ht₀ : s.mm.HasTable d i := by
    unfold Mm.HasTable at ht ⊢
    rwa [heq] at ht
  exact ⟨ht₀, heq, dropped_needs h hdrop hsum (h.table i hi ht₀).1 huse⟩

/-- A 4 MB page of the new state was one before. -/
theorem dropped_big (hbd : b.start ≠ d) {i : ℕ} (hi : i < pdx uTop)
    (hP : isPresent (s'.mm.word d i) = true) (hH : isHuge (s'.mm.word d i) = true) :
    s'.mm.word d i = s.mm.word d i ∧ ∃ c ∈ live', c.huge = true ∧ c.start = pgnum (s.mm.word d i) ∧
      ∀ j, c.Has j → j ≠ c.start → s.ref j = 0 := by
  have heq := hdrop.word_of_present (hdrop.stays_page h.root hbd) hP
  have huse := uses_big hi hP hH
  rw [heq] at hP hH huse
  obtain ⟨c, hc, hch, hstart, hrefs⟩ := h.big i hi hP hH
  rw [← hstart] at huse
  exact ⟨heq, c, dropped_needs h hdrop hsum hc huse, hch, hstart, hrefs⟩

include hb

/-- **The references of the new state are counted.** -/
theorem dropped_ready (hbd : b.start ≠ d) (hbs : b.start ≠ s.envFrame e) :
    FreeReady s' e d live' l' := by
  have henv : s'.envFrame = s.envFrame := hdrop.space.envFrame
  refine ⟨hdrop.inv, hdrop.steady, ?_, ?_, hdrop.stays_page h.root hbd, ?_, ?_, ?_, ?_, ?_, ?_, ?_⟩
  · rw [hdrop.npages]
    exact h.small
  · rw [Vm.pgdir, hdrop.space.envs]
    exact h.dir
  · rw [henv]
    exact hdrop.stays_page h.slot hbs
  · rw [henv]
    exact h.slotDir
  · intro i hi ht
    obtain ⟨ht₀, heq, hmem⟩ := dropped_table h hdrop hsum hbd hi ht
    rw [heq, henv]
    exact ⟨hmem, (h.table i hi ht₀).2⟩
  · intro i hi j hj hti htj
    obtain ⟨hti₀, heqi, -⟩ := dropped_table h hdrop hsum hbd hi hti
    obtain ⟨htj₀, heqj, -⟩ := dropped_table h hdrop hsum hbd hj htj
    rw [heqi, heqj]
    exact h.apart i hi j hj hti₀ htj₀
  · intro i hi ht j hj hP
    obtain ⟨ht₀, heq, hmem⟩ := dropped_table h hdrop hsum hbd hi ht
    have huse := uses_pte hi ht hj ⟨hP, rfl⟩
    rw [heq] at hP huse ⊢
    have hpte := hdrop.word_of_present hmem hP
    rw [hpte] at hP huse ⊢
    obtain ⟨c, hc, hch, hstart, hcd, hce, hck⟩ := h.pte i hi ht₀ j hj hP
    rw [← hstart] at huse
    refine ⟨c, dropped_needs h hdrop hsum hc huse, hch, hstart, hcd, by rw [henv]; exact hce,
      fun k hk htk => ?_⟩
    obtain ⟨htk₀, heqk, -⟩ := dropped_table h hdrop hsum hbd hk htk
    rw [heqk]
    exact hck k hk htk₀
  · intro i hi hP hH
    obtain ⟨heq, c, hc, hch, hstart, hrefs⟩ := dropped_big h hdrop hsum hbd hi hP hH
    refine ⟨c, hc, hch, by rw [heq]; exact hstart, fun j hj hne => ?_⟩
    rw [hdrop.refs j ?_]
    · exact hrefs j hj hne
    · rintro rfl
      have hcb := h.inv.has_inj (hdrop.sub hc) hb hj b.has_start
      rw [hcb] at hne
      exact hne rfl
  · intro g
    have hs := hsum g
    have hc := h.counted g
    by_cases hg : g = b.start
    · have href := dropped_ref h hdrop hsum
      rw [if_pos hg] at hs
      rw [hg] at hs hc ⊢
      omega
    · rw [hdrop.refs g hg]
      rw [if_neg hg] at hs
      omega

/-- **The reference has gone together with the entry.** -/
theorem dropped_drops (hbd : b.start ≠ d) : Drops s s' d live live' l l' := by
  refine ⟨hdrop.npages, hdrop.space, ?_, ?_, fun c hc => hdrop.sub hc, ?_, ?_, ?_, ?_⟩
  · intro g
    have hs := hsum g
    by_cases hg : g = b.start
    · have href := dropped_ref h hdrop hsum
      rw [if_pos hg] at hs
      rw [hg] at hs ⊢
      omega
    · rw [if_neg hg] at hs
      rw [hdrop.refs g hg]
      omega
  · intro g
    rw [hsum g]
    exact Nat.le_add_right _ _
  · intro c hc hnot
    have hcb : c = b := by
      by_contra hne
      exact hnot (hdrop.stays hc hne)
    rw [hcb] at hnot ⊢
    rcases hdrop.blocks with ⟨-, heq, -⟩ | ⟨href, -, -⟩
    · rw [heq] at hnot
      exact absurd hb hnot
    · rw [hsum b.start, if_pos rfl, hdrop.ref, href]
      exact ⟨Nat.succ_pos _, rfl⟩
  · intro c hc href
    by_cases hcb : c.start = b.start
    · have hsame : c = b := h.inv.has_inj (hdrop.sub hc) hb c.has_start (hcb ▸ b.has_start)
      rw [hsame] at hc href ⊢
      rcases hdrop.blocks with ⟨hne, -, -⟩ | ⟨-, heq, -⟩
      · rw [hdrop.ref] at href
        exact absurd (by bv_omega) hne
      · rw [heq] at hc
        exact absurd b.has_start ((h.inv.mem_erase hb hc).2 b.start b.has_start)
    · rw [hdrop.refs _ hcb] at href
      exact href
  · intro g
    rcases hdrop.blocks with ⟨-, heq, hl⟩ | ⟨-, heq, hl⟩
    · rw [hl, heq]
      refine ⟨Or.inl, ?_⟩
      rintro (hg | ⟨c, hc, hnot, -⟩)
      · exact hg
      · exact absurd hc hnot
    · rw [hl, heq, mem_backList]
      constructor
      · rintro (hg | hg)
        · refine Or.inr ⟨b, hb, fun hc => ?_, hg⟩
          exact (h.inv.mem_erase hb hc).2 b.start b.has_start b.has_start
        · exact Or.inl hg
      · rintro (hg | ⟨c, hc, hnot, hg⟩)
        · exact Or.inr hg
        · have hcb : c = b := by
            by_contra hne
            exact hnot ((List.mem_erase_of_ne hne).2 hc)
          rw [hcb] at hg
          exact Or.inl hg
  · intro hblank i hi hP hH j hj
    obtain ⟨heq, c, hc, -, hstart, -⟩ := dropped_big h hdrop hsum hbd hi hP hH
    have hw := hdrop.words c hc c.start c.has_start j
    rw [heq] at hP hH ⊢
    rw [hstart] at hw
    rw [hw]
    split
    · rfl
    · exact hblank i hi hP hH j hj

/-- **One reference goes, and the entry that held it.** -/
theorem dropped (hbd : b.start ≠ d) (hbs : b.start ≠ s.envFrame e) :
    FreeReady s' e d live' l' ∧ Drops s s' d live live' l l' :=
  ⟨dropped_ready h hb hdrop hsum hbd hbs, dropped_drops h hb hdrop hsum hbd⟩

end Dropped

/-! ### One entry of a page table -/

theorem single_lt (h : AllocInv s.mm live l) (hb : b ∈ live) : b.start < s.mm.npages := by
  have hbound := h.bound b hb
  have hsize : 0 < b.size := by
    unfold Block.size
    split <;> decide
  omega

theorem user_lt {i : ℕ} (hi : i < pdx uTop) : i < 1024 := by
  rw [pdx_uTop] at hi
  omega

/-- A single block has no other frames. -/
theorem single_rest (hh : b.huge = false) : ∀ j, b.Has j → j ≠ b.start → s.ref j = 0 :=
  fun _ hj hne => absurd ((Block.has_single hh).1 hj) hne

/-- **`page_remove` of a page with an entry in a page table**: of the page tables only this entry
changes. -/
theorem pageRemove_drops (h : FreeReady s e d live l) {i j : ℕ} {va : BitVec 32} (hx : pdx va = i)
    (hy : ptx va = j) (hi : i < pdx uTop) (ht : s.mm.HasTable d i)
    (hP : isPresent (s.mm.word (pgnum (s.mm.word d i)) j) = true) :
    ∃ s' live' l', pageRemove s (some d) va = .ok s' ∧ FreeReady s' e d live' l' ∧
      Drops s s' d live live' l l' ∧ (∀ k, s'.mm.word d k = s.mm.word d k) ∧
      ∀ k < pdx uTop, s.mm.HasTable d k → ∀ n, s'.mm.word (pgnum (s.mm.word d k)) n =
        if k = i ∧ n = j then 0 else s.mm.word (pgnum (s.mm.word d k)) n := by
  have hj : j < 1024 := by
    rw [← hy, ptx_eq]
    exact Nat.mod_lt _ (by decide)
  obtain ⟨b, hb, hh, hstart, hbd, hbe, hbt⟩ := h.pte i hi ht j hj hP
  obtain ⟨htb, htd, -⟩ := h.table i hi ht
  obtain ⟨t, hpg⟩ : ∃ t, pgnum (s.mm.word d i) = t := ⟨_, rfl⟩
  have hbt' : b.start ≠ t := hpg ▸ hbt i hi ht
  rw [hpg] at hP hstart htb htd
  have htlt : t < s.mm.npages := single_lt h.inv htb
  have hmap : Maps (s.mm.word d (pdx va)) t := by
    rw [hx]
    exact ⟨ht.1, hpg⟩
  have hsmall : isHuge (s.mm.word d (pdx va)) = false := by
    rw [hx]
    exact ht.2
  have hlookup : pageLookup s (some d) va = .ok (some b.start) := by
    unfold pageLookup
    rw [if_neg (fun hc => nomatch hc), pgdirFind_table hmap hsmall htlt]
    change (do
      let pp ← pa2page s.mm.npages (pteAddr (s.mm.word t (ptx va)))
      pure (some pp)) = _
    unfold pa2page
    rw [pgnum_pteAddr, hy, ← hstart, if_neg (Nat.not_le.2 (single_lt h.inv hb))]
    rfl
  have huse := uses_pte hi ht hj (by rw [hpg]; exact ⟨hP, hstart.symm⟩)
  have hne : ¬ s.ref b.start = 0 := by
    intro hz
    have hcount := h.counted b.start
    rw [hz] at hcount
    change _ ≤ 0 at hcount
    omega
  obtain ⟨s₁, live', l', hrun, htaken⟩ := releaseIf_takes h.inv h.steady hb (single_rest hh)
  have hdrop := htaken.thenZero ⟨t, j⟩
  have hword : ∀ {f : ℕ}, pageBlock f ∈ live → b.start ≠ f → ∀ k,
      (s₁.setPte ⟨t, j⟩ 0).mm.word f k = if f = t ∧ k = j then 0 else s.mm.word f k :=
    fun hf hne k => hdrop.words _ (hdrop.stays_page hf hne) _ (pageBlock_has.2 rfl) k
  have hdir : ∀ k, (s₁.setPte ⟨t, j⟩ 0).mm.word d k = s.mm.word d k := by
    intro k
    rw [hword h.root hbd, if_neg fun hc => htd hc.1.symm]
  -- another page table is another frame
  have htab : ∀ k < pdx uTop, s.mm.HasTable d k → ∀ n,
      (s₁.setPte ⟨t, j⟩ 0).mm.word (pgnum (s.mm.word d k)) n =
        if k = i ∧ n = j then 0 else s.mm.word (pgnum (s.mm.word d k)) n := by
    intro k hk htk n
    rw [hword (h.table k hk htk).1 (hbt k hk htk)]
    refine if_congr (and_congr_left fun _ => ⟨fun heq => ?_, fun hki => hki ▸ hpg⟩) rfl rfl
    exact h.apart k hk i hi htk ht (heq.trans hpg.symm)
  have hsum : ∀ g, s.mm.uses d g =
      (s₁.setPte ⟨t, j⟩ 0).mm.uses d g + if g = b.start then 1 else 0 := by
    intro g
    have hself : ∀ k, (s₁.setPte ⟨t, j⟩ 0).mm.word t k = if k = j then 0 else s.mm.word t k := by
      intro k
      have hk := htab i hi ht k
      rw [hpg] at hk
      exact hk.trans (if_congr (and_iff_right rfl) rfl rfl)
    have hslot := @slotUses_clear _ (s₁.setPte ⟨t, j⟩ 0).mm _ _ g _ _ _ ht hpg (hdir i) hj hself
      ⟨hP, hstart.symm⟩
    have hother : ∀ k < pdx uTop, k ≠ i →
        (s₁.setPte ⟨t, j⟩ 0).mm.slotUses d k g = s.mm.slotUses d k g := by
      intro k hk hki
      refine slotUses_congr (hdir k) fun htk n _ => ?_
      rw [htab k hk htk, if_neg fun hc => hki hc.1]
    have hstep := uses_slot (m := s.mm) hi hother
    omega
  obtain ⟨hready, hdrops⟩ := h.dropped hb hdrop hsum hbd hbe
  refine ⟨s₁.setPte ⟨t, j⟩ 0, live', l', ?_, hready, hdrops, hdir, htab⟩
  have hdir₁ : ∀ k, s₁.mm.word d k = s.mm.word d k := by
    intro k
    exact Mm.word_of_mem (htaken.mem _ (hdrop.stays_page h.root hbd) d (pageBlock_has.2 rfl)) k
  rw [pageRemove_released hlookup hne hrun]
  rw [pgdirFind_table (t := t) (by rw [hdir₁]; exact hmap) (by rw [hdir₁]; exact hsmall)
    (by rw [htaken.npages]; exact htlt), hy]
  rfl

/-- **The round of `env_free` for one entry of a page table.** -/
theorem freePte_drops (h : FreeReady s e d live l) {i j : ℕ} (hi : i < pdx uTop) (hj : j < 1024)
    (ht : s.mm.HasTable d i) :
    ∃ s' live' l', freePte e i (pgnum (s.mm.word d i)) s j = .ok s' ∧ FreeReady s' e d live' l' ∧
      Drops s s' d live live' l l' ∧ (∀ k, s'.mm.word d k = s.mm.word d k) ∧
      isPresent (s'.mm.word (pgnum (s.mm.word d i)) j) = false ∧
      ∀ k ≠ j, s'.mm.word (pgnum (s.mm.word d i)) k = s.mm.word (pgnum (s.mm.word d i)) k := by
  by_cases hP : isPresent (s.mm.word (pgnum (s.mm.word d i)) j) = true
  · obtain ⟨s', live', l', hrun, hready, hdrops, hdir, htab⟩ :=
      h.pageRemove_drops (pdx_pgAddr (user_lt hi) hj) (ptx_pgAddr (user_lt hi) hj) hi ht hP
    have hself : isPresent (s'.mm.word (pgnum (s.mm.word d i)) j) = false := by
      rw [htab i hi ht, if_pos ⟨rfl, rfl⟩]
      rfl
    refine ⟨s', live', l', ?_, hready, hdrops, hdir, hself,
      fun k hk => (htab i hi ht k).trans (if_neg fun hc => hk hc.2)⟩
    have hpte : isPresent (s.pte ⟨pgnum (s.mm.word d i), j⟩) = true := hP
    rw [freePte, if_pos hpte, h.dir, hrun]
  · have hpte : ¬ isPresent (s.pte ⟨pgnum (s.mm.word d i), j⟩) = true := hP
    refine ⟨s, live, l, ?_, h, .refl s d live l, fun _ => rfl, by simpa using hP, fun _ _ => rfl⟩
    rw [freePte, if_neg hpte]
    rfl

/-- **The loop of `env_free` over a page table.** -/
theorem freeEntries_drops (h : FreeReady s e d live l) {i : ℕ} (hi : i < pdx uTop)
    (ht : s.mm.HasTable d i) {n : ℕ} (hn : n ≤ 1024) :
    ∃ s' live' l', (List.range n).foldlM (freePte e i (pgnum (s.mm.word d i))) s = .ok s' ∧
      FreeReady s' e d live' l' ∧
      Drops s s' d live live' l l' ∧ (∀ k, s'.mm.word d k = s.mm.word d k) ∧
      ∀ j < n, isPresent (s'.mm.word (pgnum (s.mm.word d i)) j) = false := by
  induction n with
  | zero =>
      exact ⟨s, live, l, rfl, h, .refl s d live l, fun _ => rfl, fun j hj =>
        absurd hj (Nat.not_lt_zero j)⟩
  | succ n ih =>
      obtain ⟨s₁, live₁, l₁, hrun, hready, hdrops, hdir, hgone⟩ := ih (by omega)
      have ht₁ : s₁.mm.HasTable d i := by
        unfold Mm.HasTable
        rw [hdir]
        exact ht
      obtain ⟨s', live', l', hrun', hready', hdrops', hdir', hself, hrest⟩ :=
        hready.freePte_drops hi (j := n) (by omega) ht₁
      rw [hdir] at hrun' hself hrest
      refine ⟨s', live', l', ?_, hready', hdrops.trans hdrops', fun k => (hdir' k).trans (hdir k),
        fun j hj => ?_⟩
      · rw [List.range_succ, List.foldlM_append, hrun]
        change ([n].foldlM (freePte e i (pgnum (s.mm.word d i))) s₁) = _
        rw [List.foldlM_cons, hrun']
        rfl
      · by_cases hjn : j = n
        · rw [hjn]
          exact hself
        · rw [hrest j hjn]
          exact hgone j (by omega)

/-! ### One entry of the directory -/

/-- **The slot goes, and the reference of its word.** -/
theorem decref_slot (h : FreeReady s e d live l) {i : ℕ} (hi : i < pdx uTop) (hb : b ∈ live)
    (hbd : b.start ≠ d) (hbe : b.start ≠ s.envFrame e)
    (hrest : ∀ j, b.Has j → j ≠ b.start → s.ref j = 0)
    (htables : ∀ k < pdx uTop, k ≠ i → s.mm.HasTable d k → b.start ≠ pgnum (s.mm.word d k))
    (huses : ∀ g, s.mm.slotUses d i g = if g = b.start then 1 else 0) :
    ∃ s' live' l', decref (s.setPte ⟨d, i⟩ 0) b.start = .ok s' ∧ FreeReady s' e d live' l' ∧
      Drops s s' d live live' l l' ∧
      ∀ k, s'.mm.word d k = if k = i then 0 else s.mm.word d k := by
  have hinv : AllocInv (s.setPte ⟨d, i⟩ 0).mm live l :=
    h.inv.congr rfl rfl rfl (fun _ => rfl) fun _ _ => rfl
  obtain ⟨s', live', l', hrun, htaken⟩ := decref_takes hinv (h.steady.setWord 0 d i) hb hrest
  have hdrop := htaken.afterZero
  have hdir : ∀ k, s'.mm.word d k = if k = i then 0 else s.mm.word d k := by
    intro k
    rw [hdrop.words _ (hdrop.stays_page h.root hbd) d (pageBlock_has.2 rfl)]
    by_cases hk : k = i
    · rw [if_pos ⟨rfl, hk⟩, if_pos hk]
    · rw [if_neg fun hc => hk hc.2, if_neg hk]
  have habs : isPresent (s'.mm.word d i) = false := by
    rw [hdir, if_pos rfl]
    rfl
  have hsum : ∀ g, s.mm.uses d g = s'.mm.uses d g + if g = b.start then 1 else 0 := by
    intro g
    have hother : ∀ k < pdx uTop, k ≠ i → s'.mm.slotUses d k g = s.mm.slotUses d k g := by
      intro k hk hki
      refine slotUses_congr ((hdir k).trans (if_neg hki)) fun htk j _ => ?_
      obtain ⟨htb, htd, -⟩ := h.table k hk htk
      rw [hdrop.words _ (hdrop.stays_page htb (htables k hk hki htk)) _ (pageBlock_has.2 rfl),
        if_neg fun hc => htd hc.1]
    have hstep := uses_slot (m := s.mm) hi hother
    rw [slotUses_absent habs, huses g] at hstep
    omega
  obtain ⟨hready, hdrops⟩ := h.dropped hb hdrop hsum hbd hbe
  exact ⟨s', live', l', hrun, hready, hdrops, hdir⟩

/-- **The round of `env_free` for one entry of the directory**, when no word below a 4 MB entry
looks present. -/
theorem freePde_drops (h : FreeReady s e d live l) {i : ℕ} (hi : i < pdx uTop)
    (hblank : s.mm.BlankHeads d) :
    ∃ s' live' l', freePde e d s i = .ok s' ∧ FreeReady s' e d live' l' ∧
      Drops s s' d live live' l l' ∧
      isPresent (s'.mm.word d i) = false ∧ ∀ k ≠ i, s'.mm.word d k = s.mm.word d k := by
  by_cases hP : isPresent (s.mm.word d i) = true
  · -- the loop over the words, and then the reference of the slot
    have hend : ∀ {s₁ : Vm} {live₁ : List Block} {l₁ : List ℕ} {f : ℕ}, pgnum (s.mm.word d i) = f →
        f < s.mm.npages →
        (List.range nPdEntries).foldlM (freePte e i f) s = .ok s₁ → s₁.mm.npages = s.mm.npages →
        (∀ k, s₁.mm.word d k = s.mm.word d k) → Drops s s₁ d live live₁ l l₁ →
        (∃ s' live' l', decref (s₁.setPte ⟨d, i⟩ 0) f = .ok s' ∧ FreeReady s' e d live' l' ∧
          Drops s₁ s' d live₁ live' l₁ l' ∧
          ∀ k, s'.mm.word d k = if k = i then 0 else s₁.mm.word d k) →
        ∃ s' live' l', freePde e d s i = .ok s' ∧ FreeReady s' e d live' l' ∧
          Drops s s' d live live' l l' ∧
          isPresent (s'.mm.word d i) = false ∧ ∀ k ≠ i, s'.mm.word d k = s.mm.word d k := by
      rintro s₁ live₁ l₁ f hf hlt hloop hnp hdir₁ hdrops₁
        ⟨s', live', l', hrun, hready, hdrops, hdir⟩
      refine ⟨s', live', l', ?_, hready, hdrops₁.trans hdrops, ?_, fun k hk => ?_⟩
      · have hpte : isPresent (s.pte ⟨d, i⟩) = true := hP
        have hnum : pgnum (pteAddr (s.pte ⟨d, i⟩)) = f := (pgnum_pteAddr _).trans hf
        have hkaddr : kaddr s.mm.npages (pteAddr (s.pte ⟨d, i⟩)) =
            .ok (pteAddr (s.pte ⟨d, i⟩) + kernBase) := by
          rw [kaddr, hnum, if_neg (Nat.not_le.2 hlt)]
          rfl
        have hpage : pa2page s₁.mm.npages (pteAddr (s.pte ⟨d, i⟩)) = .ok f := by
          rw [pa2page, hnum, hnp, if_neg (Nat.not_le.2 hlt)]
          rfl
        unfold freePde
        dsimp only
        rw [if_pos hpte, hkaddr, hnum]
        refine bind_eq_ok.2 ⟨_, rfl, bind_eq_ok.2 ⟨s₁, hloop, bind_eq_ok.2 ⟨f, hpage, hrun⟩⟩⟩
      · rw [hdir, if_pos rfl]
        rfl
      · rw [hdir, if_neg hk, hdir₁]
    by_cases hH : isHuge (s.mm.word d i) = true
    · obtain ⟨b, hb, hbig, hstart, hrest⟩ := h.big i hi hP hH
      have hsingle : ∀ {f : ℕ}, pageBlock f ∈ live → b.start ≠ f := h.inv.huge_ne_page hb hbig
      have hloop : ∀ n, n ≤ 1024 → (List.range n).foldlM (freePte e i b.start) s = .ok s := by
        intro n
        induction n with
        | zero => exact fun _ => rfl
        | succ n ih =>
            intro hn
            have hpte : ¬ isPresent (s.pte ⟨b.start, n⟩) = true := by
              rw [Bool.not_eq_true, hstart]
              exact hblank i hi hP hH n (by omega)
            rw [List.range_succ, List.foldlM_append, ih (by omega)]
            change [n].foldlM (freePte e i b.start) s = _
            rw [List.foldlM_cons, freePte, if_neg hpte]
            rfl
      refine hend hstart.symm (single_lt h.inv hb) (hloop 1024 le_rfl) rfl (fun _ => rfl)
        (.refl s d live l) ?_
      refine h.decref_slot hi hb (hsingle h.root) (hsingle h.slot) hrest
        (fun k hk _ htk => hsingle (h.table k hk htk).1) fun g => ?_
      rw [slotUses_huge hP hH, hstart]
    · have ht : s.mm.HasTable d i := ⟨hP, by simpa using hH⟩
      obtain ⟨s₁, live₁, l₁, hloop, hready₁, hdrops₁, hdir₁, hgone⟩ :=
        h.freeEntries_drops hi ht (n := 1024) le_rfl
      have ht₁ : s₁.mm.HasTable d i := by
        unfold Mm.HasTable
        rw [hdir₁]
        exact ht
      obtain ⟨htb, htd, hte⟩ := hready₁.table i hi ht₁
      rw [hdir₁] at htb htd hte
      refine hend rfl (single_lt h.inv (h.table i hi ht).1) hloop hdrops₁.npages hdir₁ hdrops₁ ?_
      refine hready₁.decref_slot hi htb htd hte (single_rest rfl) (fun k hk hki htk heq => ?_)
        fun g => ?_
      · refine hki (hready₁.apart k hk i hi htk ht₁ ?_)
        rw [← heq, hdir₁]
        rfl
      · have hnone : ((Finset.range 1024).filter fun j =>
            Maps (s₁.mm.word (pgnum (s₁.mm.word d i)) j) g) = ∅ := by
          refine Finset.filter_eq_empty_iff.2 fun j hj hmap => ?_
          have hP' := hmap.1
          rw [hdir₁, hgone j (Finset.mem_range.1 hj)] at hP'
          cases hP'
        rw [slotUses_table ht₁, hnone, Finset.card_empty, Nat.zero_add, hdir₁]
        rfl
  · refine ⟨s, live, l, ?_, h, .refl s d live l, by simpa using hP, fun _ _ => rfl⟩
    have hpte : ¬ isPresent (s.pte ⟨d, i⟩) = true := hP
    unfold freePde
    dsimp only
    rw [if_neg hpte]
    rfl

/-- **The loop of `env_free` over the directory.** -/
theorem freePdes_drops (h : FreeReady s e d live l) (hblank : s.mm.BlankHeads d) {n : ℕ}
    (hn : n ≤ pdx uTop) :
    ∃ s' live' l', (List.range n).foldlM (freePde e d) s = .ok s' ∧ FreeReady s' e d live' l' ∧
      Drops s s' d live live' l l' ∧
      ∀ i < n, isPresent (s'.mm.word d i) = false := by
  induction n with
  | zero => exact ⟨s, live, l, rfl, h, .refl s d live l, fun j hj => absurd hj (Nat.not_lt_zero j)⟩
  | succ n ih =>
      obtain ⟨s₁, live₁, l₁, hrun, hready, hdrops, hgone⟩ := ih (by omega)
      obtain ⟨s', live', l', hrun', hready', hdrops', hself, hrest⟩ :=
        hready.freePde_drops (i := n) (by omega) (hdrops.blank hblank)
      refine ⟨s', live', l', ?_, hready', hdrops.trans hdrops', fun i hi => ?_⟩
      · rw [List.range_succ, List.foldlM_append, hrun]
        change [n].foldlM (freePde e d) s₁ = _
        rw [List.foldlM_cons, hrun']
        rfl
      · by_cases hin : i = n
        · rw [hin]
          exact hself
        · rw [hrest i hin]
          exact hgone i (by omega)

/-! ### The directory and the slot -/

/-- `page_decref(pa2page(PADDR(kva)))`, for a frame of the machine. -/
theorem decrefKva_frame {f : ℕ} (hf : f < s.mm.npages) (hsmall : s.mm.npages ≤ 65536) :
    decrefKva s f = if f = badFrame then throw (.panic "BADBAD") else decref s f := by
  have hpage : pa2page s.mm.npages (page2pa f) = .ok f := by
    rw [pa2page, pgnum_page2pa, Nat.mod_eq_of_lt (by omega), if_neg (Nat.not_le.2 hf)]
    rfl
  unfold decrefKva
  rw [paddr_frame (by omega)]
  by_cases hbad : f = badFrame
  · rw [if_pos hbad, if_pos hbad]
    rfl
  · rw [if_neg hbad, if_neg hbad]
    change (pa2page s.mm.npages (page2pa f) >>= fun pp => decref s pp) = _
    rw [hpage]
    rfl

/-- Without page tables and 4 MB pages only the directory is left. -/
theorem uses_empty {m : Mm} {d : ℕ} (hlow : ∀ i < pdx uTop, isPresent (m.word d i) = false)
    (g : ℕ) :
    m.uses d g = if g = d then 1 else 0 := by
  rw [Mm.uses, Finset.sum_eq_zero, Nat.zero_add]
  exact fun i hi => slotUses_absent (hlow i (Finset.mem_range.1 hi))

/-- **The end of `env_free`**, when the user slots are empty. -/
theorem freed (h : FreeReady s e d live l)
    (hlow : ∀ i < pdx uTop, isPresent (s.mm.word d i) = false) (hd : d ≠ badFrame)
    (hs : s.envFrame e ≠ badFrame) :
    ∃ s' l', freeDir s e d = .ok s' ∧ FreeInv s'.mm l' ∧ ∀ g ≠ s.envFrame e,
      (s'.ref g).toNat + s.mm.uses d g = (s.ref g).toNat ∧
      (g ∈ l' ↔ g ∈ l ∨ (g = d ∧ s'.ref d = 0)) := by
  have huse := uses_empty hlow
  have hcount := h.counted d
  rw [huse, if_pos rfl] at hcount
  have hdlt : d < s.mm.npages := single_lt h.inv h.root
  obtain ⟨s₁, live₁, l₁, hrun₁, hd₁⟩ :=
    decref_takes (s := s.modSpace e freedSpace) h.inv h.steady h.root (single_rest rfl)
  have hframe₁ : s₁.envFrame e = s.envFrame e := congrFun hd₁.space.envFrame e
  have hnp₁ : s₁.mm.npages = s.mm.npages := hd₁.npages
  have hslot₁ : pageBlock (s.envFrame e) ∈ live₁ := by
    have hne : pageBlock (s.envFrame e) ≠ pageBlock d :=
      fun hc => h.slotDir (congrArg Block.start hc)
    rcases hd₁.blocks with ⟨-, heq, -⟩ | ⟨-, heq, -⟩
    · rw [heq]
      exact h.slot
    · rw [heq]
      exact (List.mem_erase_of_ne hne).2 h.slot
  obtain ⟨s', live', l', hrun', hd'⟩ := decref_takes hd₁.inv hd₁.steady hslot₁ (single_rest rfl)
  have href : ∀ g ≠ s.envFrame e, s'.ref g = if g = d then s.ref d - 1 else s.ref g := by
    intro g hg
    rw [hd'.refs g hg]
    by_cases hgd : g = d
    · rw [hgd, if_pos rfl]
      exact hd₁.ref
    · rw [if_neg hgd]
      exact hd₁.refs g hgd
  have hlist₁ : ∀ g, g ∈ l₁ ↔ g ∈ l ∨ (g = d ∧ s.ref d = 1) := by
    intro g
    rcases hd₁.blocks with ⟨hne, -, heq⟩ | ⟨hone, -, heq⟩
    · rw [heq]
      exact ⟨Or.inl, fun hc => hc.resolve_right fun hx => hne hx.2⟩
    · rw [heq]
      refine List.mem_cons.trans ⟨fun hc => ?_, fun hc => ?_⟩
      · exact hc.elim (fun heq => Or.inr ⟨heq, hone⟩) Or.inl
      · exact hc.elim Or.inr fun hx => Or.inl hx.1
  have hlist' : ∀ g ≠ s.envFrame e, g ∈ l' ↔ g ∈ l₁ := by
    intro g hg
    rcases hd'.blocks with ⟨-, -, heq⟩ | ⟨-, -, heq⟩
    · rw [heq]
    · rw [heq]
      exact List.mem_cons.trans ⟨fun hc => hc.resolve_left hg, Or.inr⟩
  refine ⟨s', l', ?_, hd'.inv.freeInv, fun g hg => ⟨?_, ?_⟩⟩
  · have hslotlt : s.envFrame e < s₁.mm.npages := by
      rw [hnp₁]
      exact single_lt h.inv h.slot
    have hrun₂ : decrefKva s₁ (s₁.envFrame e) = .ok s' := by
      rw [hframe₁, decrefKva_frame hslotlt (by rw [hnp₁]; exact h.small), if_neg hs]
      exact hrun'
    rw [freeDir, decrefKva_frame (s := s.modSpace e freedSpace) hdlt h.small, if_neg hd]
    exact bind_eq_ok.2 ⟨s₁, hrun₁, hrun₂⟩
  · rw [href g hg, huse]
    by_cases hgd : g = d
    · have h1 : (1 : BitVec 16).toNat = 1 := rfl
      have hlt := (s.ref d).isLt
      rw [if_pos hgd, if_pos hgd, hgd, BitVec.toNat_sub, h1]
      omega
    · rw [if_neg hgd, if_neg hgd]
      rfl
  · rw [hlist' g hg, hlist₁ g]
    refine or_congr_right (and_congr_right fun hgd => ?_)
    rw [href d (Ne.symm h.slotDir), if_pos rfl]
    constructor
    · intro hone
      rw [hone]
      rfl
    · intro hz
      bv_omega

/-- **Every reference is given back.** -/
theorem frees (h : FreeReady s e d live l) (hblank : s.mm.BlankHeads d) (hd : d ≠ badFrame)
    (hs : s.envFrame e ≠ badFrame) :
    ∃ s' l', envFreeVm s e = .ok s' ∧ FreeInv s'.mm l' ∧ ∀ g ≠ s.envFrame e,
      (s'.ref g).toNat + s.mm.uses d g = (s.ref g).toNat ∧
      (g ∈ l' ↔ g ∈ l ∨ ∃ b ∈ live, b.Has g ∧ 0 < s.mm.uses d b.start ∧ s'.ref b.start = 0) := by
  obtain ⟨s₁, live₁, l₁, hloop, hready, hdrops, hlow⟩ :=
    h.freePdes_drops hblank (n := pdx uTop) le_rfl
  have hframe : s₁.envFrame e = s.envFrame e := congrFun hdrops.space.envFrame e
  have huse := uses_empty hlow
  obtain ⟨s', l', hrun, hfree, hall⟩ := hready.freed hlow hd (by rw [hframe]; exact hs)
  rw [hframe] at hall
  refine ⟨s', l', ?_, hfree, fun g hg => ⟨?_, ?_⟩⟩
  · rw [envFreeVm_eq h.dir]
    exact bind_eq_ok.2 ⟨s₁, hloop, hrun⟩
  · have hsum := hdrops.sum g
    have hlast := (hall g hg).1
    omega
  · rw [(hall g hg).2, hdrops.list]
    constructor
    · rintro ((hmem | ⟨b, hb, hnot, hhas⟩) | ⟨rfl, href⟩)
      · exact Or.inl hmem
      · obtain ⟨hpos, href⟩ := hdrops.gone b hb hnot
        have hbe : b.start ≠ s.envFrame e := by
          intro hc
          have hslot := hready.slot
          rw [hframe] at hslot
          have hsame := h.inv.has_inj hb (hdrops.sub _ hslot)
            b.has_start (by rw [hc]; exact pageBlock_has.2 rfl)
          rw [hsame] at hnot
          exact hnot hslot
        refine Or.inr ⟨b, hb, hhas, hpos, BitVec.eq_of_toNat_eq ?_⟩
        have hlast := (hall b.start hbe).1
        rw [href] at hlast
        change _ = 0
        change _ = 0 at hlast
        omega
      · refine Or.inr ⟨pageBlock g, h.root, pageBlock_has.2 rfl, ?_, href⟩
        have hle := hdrops.less g
        rw [huse, if_pos rfl] at hle
        exact Nat.lt_of_lt_of_le Nat.one_pos hle
    · rintro (hmem | ⟨b, hb, hhas, hpos, href⟩)
      · exact Or.inl (Or.inl hmem)
      · by_cases hlive : b ∈ live₁
        · by_cases hbd : b.start = d
          · have hsame : b = pageBlock d :=
              h.inv.has_inj hb h.root b.has_start (by rw [hbd]; exact pageBlock_has.2 rfl)
            rw [hsame] at hhas href
            exact Or.inr ⟨pageBlock_has.1 hhas, href⟩
          · exfalso
            have hbe : b.start ≠ s.envFrame e := by
              intro hc
              have hsame :=
                h.inv.has_inj hb h.slot b.has_start (by rw [hc]; exact pageBlock_has.2 rfl)
              rw [hsame] at hhas
              exact hg (pageBlock_has.1 hhas)
            have hlast := (hall b.start hbe).1
            rw [huse, if_neg hbd, href] at hlast
            have hzero : s₁.ref b.start = 0 := BitVec.eq_of_toNat_eq hlast.symm
            have hcount := h.counted b.start
            rw [hdrops.kept b hlive hzero] at hcount
            change _ ≤ 0 at hcount
            omega
        · exact Or.inl (Or.inr ⟨b, hb, hlive, hhas⟩)

end FreeReady

end Jos
