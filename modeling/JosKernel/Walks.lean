/-
**What a walk of the page tables finds.**

`pgdir_walk` ends at an entry of a page table, or at one of the directory for a 4 MB page. Nothing
is assumed in this module about the entries themselves: they may be present or not, and of either
size.

Main definitions:

* `Jos.Mm.leaf`, `Jos.Mm.leafPtr` — the word that a walk ends at, and its place.

Main results:

* `Jos.pgdirFind_leaf` — what `pgdir_walk` finds in an arbitrary directory;
* `Jos.pageRemove_rule` — the rule for `page_remove`.
-/

import JosKernel.PageTree

set_option relaxedAutoImplicit false
set_option autoImplicit false

namespace Jos

open Outcome

/-! ### The word at the end -/

/-- What `pgdir_walk` finds for the page `q`: a word, and whether it is the entry of the directory
for a 4 MB page. -/
def Mm.leaf (m : Mm) (d q : ℕ) : Option (BitVec 32 × Bool) :=
  if isPresent (m.word d (q / 1024)) then
    if isHuge (m.word d (q / 1024)) then some (m.word d (q / 1024), true)
    else some (m.word (pgnum (m.word d (q / 1024))) (q % 1024), false)
  else none

/-- The entry `i` of the directory `d` leads to a page table. -/
def Mm.HasTable (m : Mm) (d i : ℕ) : Prop :=
  isPresent (m.word d i) = true ∧ isHuge (m.word d i) = false

/-- The place of the word that a walk finds. -/
def Mm.leafPtr (m : Mm) (d q : ℕ) : PtePtr :=
  if isHuge (m.word d (q / 1024)) then ⟨d, q / 1024⟩ else ⟨pgnum (m.word d (q / 1024)), q % 1024⟩

theorem Mm.leafPtr_huge {m : Mm} {d q : ℕ} (h : isHuge (m.word d (q / 1024)) = true) :
    m.leafPtr d q = ⟨d, q / 1024⟩ := if_pos h

theorem Mm.leafPtr_small {m : Mm} {d q : ℕ} (h : isHuge (m.word d (q / 1024)) = false) :
    m.leafPtr d q = ⟨pgnum (m.word d (q / 1024)), q % 1024⟩ :=
      if_neg (by rw [h]; exact Bool.false_ne_true)

/-- The two kinds of words that a walk finds. -/
theorem Mm.leaf_eq_some {m : Mm} {d q : ℕ} {w : BitVec 32} {b : Bool}
    (h : m.leaf d q = some (w, b)) :
    isPresent (m.word d (q / 1024)) = true ∧ isHuge (m.word d (q / 1024)) = b ∧
      w = m.word (m.leafPtr d q).frame (m.leafPtr d q).idx := by
  unfold Mm.leaf at h
  unfold Mm.leafPtr
  split at h
  · rename_i hP
    split at h
    · rename_i hH
      obtain ⟨rfl, rfl⟩ := Prod.mk.inj (Option.some.inj h)
      rw [if_pos hH]
      exact ⟨hP, hH, rfl⟩
    · rename_i hH
      obtain ⟨rfl, rfl⟩ := Prod.mk.inj (Option.some.inj h)
      rw [if_neg hH]
      exact ⟨hP, Bool.eq_false_of_not_eq_true hH, rfl⟩
  · exact nomatch h

theorem Mm.leaf_eq_none {m : Mm} {d q : ℕ} :
    m.leaf d q = none ↔ isPresent (m.word d (q / 1024)) = false := by
  unfold Mm.leaf
  split
  · rename_i hP
    rw [hP]
    split
    · exact ⟨fun h => (nomatch h), fun h => (nomatch h)⟩
    · exact ⟨fun h => (nomatch h), fun h => (nomatch h)⟩
  · rename_i hP
    exact ⟨fun _ => Bool.eq_false_of_not_eq_true hP, fun _ => rfl⟩

theorem Mm.leaf_of_table {m : Mm} {d q t : ℕ} (ht : t < 2 ^ 20)
    (h : m.word d (q / 1024) = tablePde t) :
    m.leaf d q = some (m.word t (q % 1024), false) := by
  unfold Mm.leaf
  rw [h, if_pos (isPresent_tablePde t), if_neg (by rw [isHuge_tablePde]; exact Bool.false_ne_true),
    pgnum_tablePde ht]

theorem tablePde_inj {t u : ℕ} (ht : t < 2 ^ 20) (hu : u < 2 ^ 20) (h : tablePde t = tablePde u) :
    t = u := by
  rw [← pgnum_tablePde ht, h, pgnum_tablePde hu]

theorem tablePde_ne_zero (t : ℕ) : tablePde t ≠ 0 := by
  intro h
  have hP := isPresent_tablePde t
  rw [h] at hP
  exact absurd hP (by decide)

/-! ### `pgdir_walk` -/

theorem pa2page_ends (npages : ℕ) (pa : BitVec 32) :
    Ends (fun _ => True) (fun pp => pp = pgnum pa) (pa2page npages pa) :=
  ends_ite (fun _ => True.intro) fun _ => rfl

/-- What `pgdir_walk` finds in an arbitrary directory. -/
theorem pgdirFind_leaf (s : Vm) (d : ℕ) (va : BitVec 32) :
    Ends (fun _ => True)
      (fun r => (r = none ∧ s.mm.leaf d (vpn va) = none) ∨
        (r = some (s.mm.leafPtr d (vpn va)) ∧ isPresent (s.mm.word d (vpn va / 1024)) = true))
      (pgdirFind s (some d) va) := by
  unfold pgdirFind
  dsimp only
  rw [pdx_eq]
  refine ends_ite (fun hP => ?_) fun hP => ?_
  · unfold walkEnd
    rw [Bool.false_or, ends_bind]
    refine ends_ite (fun hH => Or.inr ⟨?_, hP⟩) fun hH => ?_
    · rw [Mm.leafPtr_huge hH]
    · rw [ends_bind]
      unfold kaddr
      refine ends_ite (fun _ => True.intro) fun _ => Or.inr ⟨?_, hP⟩
      rw [Mm.leafPtr_small (Bool.eq_false_of_not_eq_true hH), pgnum_pteAddr, ptx_eq]
      rfl
  · exact Or.inl ⟨rfl, Mm.leaf_eq_none.2 (Bool.eq_false_of_not_eq_true hP)⟩

/-! ### `page_remove` -/

/-- **A rule for `page_remove`.** Without an entry nothing happens. Otherwise `P` holds when the
reference is gone, and `Q` when the entry is cleared, which is looked up again. -/
theorem pageRemove_rule {s : Vm} {d : ℕ} {va : BitVec 32} {P Q : Vm → Prop}
    (hnone : s.mm.leaf d (vpn va) = none → Q s)
    (hdrop : isPresent (s.mm.word d (vpn va / 1024)) = true → ∀ pp < s.mm.npages,
      pgnum (s.pte (s.mm.leafPtr d (vpn va))) = pp → s.ref pp ≠ 0 →
      Ends (fun _ => True) P (if (s.setRef pp (s.ref pp - 1)).ref pp = 0 then releasePage
        (s.setRef pp (s.ref pp - 1)) pp
        else pure (s.setRef pp (s.ref pp - 1))))
    (hclear : ∀ s₁, P s₁ → (s₁.mm.leaf d (vpn va) = none → Q s₁) ∧
      (isPresent (s₁.mm.word d (vpn va / 1024)) = true →
        Q (s₁.setPte (s₁.mm.leafPtr d (vpn va)) 0))) :
    Ends (fun _ => True) Q (pageRemove s (some d) va) := by
  unfold pageRemove pageLookup
  rw [if_neg (fun hc => by cases hc), if_neg (fun hc => by cases hc)]
  simp only [ends_bind]
  refine (pgdirFind_leaf s d va).post ?_
  rintro r (⟨rfl, hleaf⟩ | ⟨rfl, hP⟩)
  · exact hnone hleaf
  dsimp only
  rw [ends_bind]
  unfold pa2page
  refine ends_ite (fun _ => True.intro) fun hlt => ?_
  rw [pgnum_pteAddr] at hlt ⊢
  refine ends_ite (fun _ => True.intro) fun href => ?_
  have hend : ∀ s₁, P s₁ → Ends (fun _ => True) Q (clearEntry s₁ (some d) va) := by
    intro s₁ h₁
    rw [clearEntry, ends_bind]
    refine (pgdirFind_leaf s₁ d va).post ?_
    rintro r (⟨rfl, hleaf⟩ | ⟨rfl, hP₁⟩)
    · exact (hclear s₁ h₁).1 hleaf
    · exact (hclear s₁ h₁).2 hP₁
  have hrelease := hdrop hP _ (Nat.not_le.1 hlt) rfl href
  refine Ends.ite_bind (ends_ite (fun hz => ?_) fun hz => ?_)
  · rw [if_pos hz] at hrelease
    exact hrelease.post hend
  · rw [if_neg hz] at hrelease
    exact hend _ hrelease

end Jos
