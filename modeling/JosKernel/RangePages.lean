/-
**The pages beside a range.**

What the loops over the pages of a range do to the pages that are not in it. `vma_remove_pages`
takes a 4 MB page away with the first of its pages that is in the range. `vma_change_perm` with
`PTE_PS` makes the entry of the directory a 4 MB page, whatever the entry was before: a page table
that was there is lost with all its pages.

Main definitions:

* `Jos.EnlargedAll` — the memory during a change of the permission to one with `PTE_PS`;
* `Jos.Enlarged` — the memory after it;
* `Jos.Mm.Displaces` — a page gets another translation.

Main results:

* `Jos.changePermOn_enlarged` — what the loop of `vma_change_perm` does when `PTE_PS` is asked for;
* `Jos.changePerm_beside` — **when a page beside the range keeps its translation**;
* `Jos.vmaPopulate_same` — a call of `vma_populate` that returns has done nothing.
-/

import JosKernel.Sharing

set_option relaxedAutoImplicit false
set_option autoImplicit false

namespace Jos

open LinkedList Outcome

/-! ### 4 MB pages that a change of the permission makes -/

/-- **The memory once the entries of the directory in `T` have become 4 MB pages**: an entry that
was one has its permission changed, the other entries and their page tables are as before. -/
structure EnlargedAll (c₀ c : Core) (d : ℕ) (perm : BitVec 32) (T : ℕ → Prop) : Prop where
  curenv : c.curenv = c₀.curenv
  pgdir : ∀ e, c.vm.pgdir e = c₀.vm.pgdir e
  tables : TlbTables c.vm.mm d
  present : ∀ i, T i → isPresent (c₀.vm.mm.word d i) = true
  huge : ∀ i, T i → ∃ w, c.vm.mm.word d i = renew perm w
  renewed : ∀ i, T i → isHuge (c₀.vm.mm.word d i) = true →
    c.vm.mm.word d i = renew perm (c₀.vm.mm.word d i)
  dir : ∀ i, ¬ T i → c.vm.mm.word d i = c₀.vm.mm.word d i
  table : ∀ i < pdx uTop, ¬ T i → c₀.vm.mm.HasTable d i → ∀ k,
    c.vm.mm.word (pgnum (c₀.vm.mm.word d i)) k = c₀.vm.mm.word (pgnum (c₀.vm.mm.word d i)) k

namespace EnlargedAll

variable {c₀ c : Core} {d : ℕ} {perm : BitVec 32} {T T' : ℕ → Prop}

theorem start (ht : TlbTables c₀.vm.mm d) : EnlargedAll c₀ c₀ d perm fun _ => False where
  curenv := rfl
  pgdir _ := rfl
  tables := ht
  present _ h := h.elim
  huge _ h := h.elim
  renewed _ h := h.elim
  dir _ _ := rfl
  table _ _ _ _ _ := rfl

theorem congr (h : EnlargedAll c₀ c d perm T) (hT : ∀ i, T' i ↔ T i) :
    EnlargedAll c₀ c d perm T' := by
  obtain rfl : T' = T := funext fun i => propext (hT i)
  exact h

/-- The pages of an entry that has not been touched. -/
theorem leaf_same (h : EnlargedAll c₀ c d perm T) {q : ℕ} (hq : q / 1024 < pdx uTop)
    (hT : ¬ T (q / 1024)) : c.vm.mm.leaf d q = c₀.vm.mm.leaf d q := by
  unfold Mm.leaf
  rw [h.dir _ hT]
  cases hP : isPresent (c₀.vm.mm.word d (q / 1024)) with
  | false => rfl
  | true =>
      cases hH : isHuge (c₀.vm.mm.word d (q / 1024)) with
      | true => rfl
      | false =>
          rw [if_pos rfl, if_pos rfl, if_neg Bool.false_ne_true, if_neg Bool.false_ne_true,
            h.table _ hq hT ⟨hP, hH⟩]

/-- The pages of an entry that is a 4 MB page now. -/
theorem leaf_huge (h : EnlargedAll c₀ c d perm T) (hperm : isHuge perm = true) {q : ℕ}
    (hT : T (q / 1024)) : c.vm.mm.leaf d q = some (c.vm.mm.word d (q / 1024), true) := by
  obtain ⟨w, hw⟩ := h.huge _ hT
  have hP : isPresent (renew perm w) = true := isPresent_newPte _ perm
  have hH : isHuge (renew perm w) = true := (isHuge_newPte _ perm).trans hperm
  unfold Mm.leaf
  rw [hw, if_pos hP, if_pos hH]

/-- **One page**: its entry of the directory becomes a 4 MB page. -/
theorem change (h : EnlargedAll c₀ c d perm T) {e : ℕ} (hcur : c₀.curenv = some e)
    (hd : c₀.vm.pgdir e = some d) (hperm : isHuge perm = true) {va w : BitVec 32} {b : Bool}
    (hva : va < uTop) (hleaf : c.vm.mm.leaf d (vpn va) = some (w, b)) :
    Ends (fun _ => True) (fun r => EnlargedAll c₀ r.2 d perm fun i => T i ∨ i = vpn va / 1024)
      (pageInsertOn c (some d) (some (pgnum w)) va perm) := by
  obtain ⟨hP, hH, hw⟩ := Mm.leaf_eq_some hleaf
  refine (pageInsertOn_inserted h.tables (h.curenv.trans hcur) ((h.pgdir e).trans hd) hP).post ?_
  rintro ⟨ok, c'⟩ hi
  have hi : InsertedOn c c' d (pgnum w) va perm := hi
  have hnew : c'.vm.mm.word d (vpn va / 1024) = renew perm w := by
    rw [hi.words.word_dir, insertWords, if_pos (by rw [hperm]; rfl)]
    rfl
  have hdir : ∀ i, i ≠ vpn va / 1024 → c'.vm.mm.word d i = c.vm.mm.word d i := fun i hne =>
    hi.words.word_dir_same (InsertedOn.insertWords_dir h.tables hva hP fun hc => hne hc.1)
  have hhuge : isHuge (c'.vm.mm.word d (vpn va / 1024)) = true := by
    rw [hnew]
    exact (isHuge_newPte _ perm).trans hperm
  -- the page tables that are left are page tables from before
  have hleft : ∀ i, c'.vm.mm.HasTable d i →
      i ≠ vpn va / 1024 ∧ c.vm.mm.HasTable d i ∧ c'.vm.mm.word d i = c.vm.mm.word d i := by
    rintro i ⟨hPi, hHi⟩
    have hne : i ≠ vpn va / 1024 := by
      rintro rfl
      rw [hhuge] at hHi
      cases hHi
    rw [hdir i hne] at hPi hHi
    exact ⟨hne, ⟨hPi, hHi⟩, hdir i hne⟩
  have htable : ∀ i < pdx uTop, i ≠ vpn va / 1024 → c.vm.mm.HasTable d i → ∀ k,
      c'.vm.mm.word (pgnum (c.vm.mm.word d i)) k = c.vm.mm.word (pgnum (c.vm.mm.word d i)) k := by
    intro i hilow hne htab k
    have hi1024 : i < 1024 := by
      have hpdx : pdx uTop = 955 := rfl
      omega
    rw [hi.words _ (Or.inr ⟨i, hi1024, htab, rfl⟩) k]
    -- the words that are written are those of the directory and of the table that is lost
    have hnone : insertWords c d (pgnum w) va perm ⟨pgnum (c.vm.mm.word d i), k⟩ = none := by
      have hins : (⟨pgnum (c.vm.mm.word d i), k⟩ : PtePtr) ≠
          c.vm.mm.insertPtr d (vpn va) (isHuge perm) := by
        rw [hperm]
        exact fun hc => h.tables.user i hilow htab (congrArg PtePtr.frame hc)
      have hptr : (⟨pgnum (c.vm.mm.word d i), k⟩ : PtePtr) ≠ c.vm.mm.leafPtr d (vpn va) := by
        intro hc
        cases hHv : isHuge (c.vm.mm.word d (vpn va / 1024)) with
        | true =>
            rw [Mm.leafPtr_huge hHv] at hc
            exact h.tables.user i hilow htab (congrArg PtePtr.frame hc)
        | false =>
            rw [Mm.leafPtr_small hHv] at hc
            refine hne (h.tables.apart i hilow _ ?_ htab ⟨hP, hHv⟩ (congrArg PtePtr.frame hc))
            have hlow := vpn_lt va
            omega
      rw [insertWords, if_neg hins, zeroAt, if_neg hptr]
      split
      · rfl
      · rfl
    rw [hnone]
    rfl
  refine ⟨hi.same.curenv.trans h.curenv, fun e => (hi.same.pgdir e).trans (h.pgdir e),
    ⟨fun g hg => ?_, fun i hilow htab => ?_, fun i hilow j hj htab htab' heq => ?_⟩, fun i hT => ?_,
    fun i hT => ?_, fun i hT hH₀ => ?_, fun i hT => ?_, fun i hilow hT htab k => ?_⟩
  · refine hi.same.marks g ?_
    rcases hg with rfl | ⟨i, hi1024, htab, rfl⟩
    · exact Or.inl rfl
    · obtain ⟨-, htab', heq⟩ := hleft i htab
      exact Or.inr ⟨i, hi1024, htab', by rw [heq]⟩
  · obtain ⟨-, htab', heq⟩ := hleft i htab
    rw [heq]
    exact h.tables.user i hilow htab'
  · obtain ⟨-, h₁, heq₁⟩ := hleft i htab
    obtain ⟨-, h₂, heq₂⟩ := hleft j htab'
    rw [heq₁, heq₂] at heq
    exact h.tables.apart i hilow j hj h₁ h₂ heq
  · rcases hT with hT | rfl
    · exact h.present i hT
    · by_cases hT : T (vpn va / 1024)
      · exact h.present _ hT
      · rw [← h.dir _ hT]
        exact hP
  · rcases eq_or_ne i (vpn va / 1024) with rfl | hne
    · exact ⟨w, hnew⟩
    · rw [hdir i hne]
      exact h.huge i (hT.resolve_right hne)
  · rcases eq_or_ne i (vpn va / 1024) with rfl | hne
    · rw [hnew]
      by_cases hT : T (vpn va / 1024)
      · obtain ⟨rfl, -⟩ := Prod.mk.inj (Option.some.inj (hleaf.symm.trans (h.leaf_huge hperm hT)))
        rw [h.renewed _ hT hH₀, renew_renew]
      · rw [← h.dir _ hT] at hH₀ ⊢
        rw [hw, Mm.leafPtr_huge hH₀]
    · rw [hdir i hne]
      exact h.renewed i (hT.resolve_right hne) hH₀
  · rw [hdir i fun hc => hT (Or.inr hc)]
    exact h.dir i fun hc => hT (Or.inl hc)
  · have hword : c.vm.mm.word d i = c₀.vm.mm.word d i := h.dir i fun hc => hT (Or.inl hc)
    have htab' : c.vm.mm.HasTable d i := by
      rw [Mm.HasTable, hword]
      exact htab
    have hsame := htable i hilow (fun hc => hT (Or.inr hc)) htab' k
    rw [hword] at hsame
    exact hsame.trans (h.table i hilow (fun hc => hT (Or.inl hc)) htab k)

end EnlargedAll

/-- **The loop of `vma_change_perm`** when `PTE_PS` is asked for. -/
theorem changePermOn_enlarged {c₀ : Core} {e d : ℕ} {perm : BitVec 32} (hcur : c₀.curenv = some e)
    (hd : c₀.vm.pgdir e = some d) (hperm : isHuge perm = true) {va : BitVec 32} :
    ∀ (n i : ℕ) (c : Core) (T : ℕ → Prop), EnlargedAll c₀ c d perm T → LowPages va i n →
      Ends (fun _ => True)
        (fun c' => EnlargedAll c₀ c' d perm fun j =>
          T j ∨ ∃ q ∈ c₀.vm.mm.walked d n (vpn va + i), q / 1024 = j)
        (changePermOn e va perm n i c) := by
  intro n
  induction n with
  | zero =>
      intro i c T h _
      refine h.congr fun j => or_iff_left ?_
      rintro ⟨q, hq, -⟩
      rw [Mm.walked] at hq
      exact List.not_mem_nil hq
  | succ n ih =>
      intro i c T h hend
      obtain ⟨hva, hvpn⟩ := pageAt_lt hend
      have hd' : c.vm.pgdir e = some d := (h.pgdir e).trans hd
      have hlow : vpn (pageAt va i) / 1024 < pdx uTop := pdx_eq (pageAt va i) ▸ pdx_lt_of_lt hva
      have hrest : ∀ (c' : Core) (T' T'' : ℕ → Prop), EnlargedAll c₀ c' d perm T' →
          (∀ j, T'' j ↔ T' j ∨ ∃ q ∈ c₀.vm.mm.walked d n (vpn (pageAt va i) + 1), q / 1024 = j) →
          Ends (fun _ => True) (fun c' => EnlargedAll c₀ c' d perm T'')
            (changePermOn e va perm n (i + 1) c') := by
        intro c' T' T'' h' hiff
        have hnext : vpn (pageAt va i) + 1 = vpn va + (i + 1) := by rw [hvpn, Nat.add_assoc]
        rw [hnext] at hiff
        exact (ih (i + 1) c' T' h' hend.succ).post fun c'' h'' => h''.congr hiff
      rw [← hvpn]
      -- the page is one of an entry that is a 4 MB page already, or its entry is as before
      by_cases hT : T (vpn (pageAt va i) / 1024)
      · have hleaf := h.leaf_huge hperm hT
        refine changePermOn_round hd' (fun hnone => ?_) (fun w b hw hP => ?_) fun w b hw _ => ?_
        · cases hnone.symm.trans hleaf
        · obtain ⟨rfl, -⟩ := Prod.mk.inj (Option.some.inj (hw.symm.trans hleaf))
          rw [(Mm.leaf_eq_some hw).1] at hP
          cases hP
        · refine (h.change hcur hd hperm hva hw).post fun r h' => hrest r.2 _ _ h' fun j => ?_
          have hsome : c₀.vm.mm.leaf d (vpn (pageAt va i)) ≠ none := by
            rw [Ne, Mm.leaf_eq_none, h.present _ hT]
            exact fun hc => by cases hc
          obtain ⟨⟨w₀, b₀⟩, hw₀⟩ := Option.ne_none_iff_exists'.1 hsome
          rw [Mm.walked, hw₀]
          simp only [List.mem_append]
          constructor
          · rintro (hj | ⟨q, hq | hq, rfl⟩)
            · exact Or.inl (Or.inl hj)
            · split at hq
              · exact Or.inl (Or.inr (by rw [List.mem_singleton.1 hq]))
              · exact absurd hq List.not_mem_nil
            · exact Or.inr ⟨q, hq, rfl⟩
          · rintro ((hj | rfl) | ⟨q, hq, rfl⟩)
            · exact Or.inl hj
            · exact Or.inl hT
            · exact Or.inr ⟨q, Or.inr hq, rfl⟩
      · have hsame := h.leaf_same hlow hT
        refine changePermOn_round hd' (fun hnone => ?_) (fun w b hw hP => ?_) fun w b hw hP => ?_
        · rw [hsame] at hnone
          refine h.congr fun j => or_iff_left ?_
          rintro ⟨q, hq, -⟩
          rw [Mm.walked, hnone] at hq
          exact List.not_mem_nil hq
        · rw [hsame] at hw
          refine hrest c T _ h fun j => ?_
          rw [Mm.walked, hw]
          dsimp only
          rw [hP, if_neg Bool.false_ne_true, List.nil_append]
        · refine (h.change hcur hd hperm hva hw).post fun r h' => hrest r.2 _ _ h' fun j => ?_
          rw [hsame] at hw
          rw [Mm.walked, hw]
          dsimp only
          rw [hP, if_pos rfl]
          simp only [List.mem_append, List.mem_singleton, or_and_right, exists_or, exists_eq_left,
            or_assoc, eq_comm (a := j)]

/-- **The page tables after the permission of the `n` pages at `first` has been changed** to one
with `PTE_PS`. -/
structure Enlarged (m m' : Mm) (d first n : ℕ) (perm : BitVec 32) : Prop where
  huge : ∀ p ∈ m.walked d n first, ∃ w, m'.word d (p / 1024) = renew perm w
  renewed : ∀ p ∈ m.walked d n first, isHuge (m.word d (p / 1024)) = true →
    m'.word d (p / 1024) = renew perm (m.word d (p / 1024))
  others : ∀ q, q / 1024 < pdx uTop → (∀ p ∈ m.walked d n first, p / 1024 ≠ q / 1024) →
    m'.leaf d q = m.leaf d q

/-- **The loop of `vma_change_perm`** when `PTE_PS` is asked for. -/
theorem changePermFrom_enlarged {s s' : Vm} {e d n : ℕ} {va perm : BitVec 32}
    (ht : TlbTables s.mm d) (hd : s.pgdir e = some d) (hperm : isHuge perm = true)
    (hlow : LowPages va 0 n) (hrun : changePermFrom e va perm n 0 s = .ok s') :
    (∀ e', s'.pgdir e' = s.pgdir e') ∧ Enlarged s.mm s'.mm d (vpn va) n perm := by
  -- the same run on a CPU whose TLB is empty
  obtain ⟨c₀, hc₀⟩ : ∃ c₀ : Core, c₀ = ⟨s, some e, fun _ => none, fun _ => none⟩ := ⟨_, rfl⟩
  have hvm : c₀.vm = s := by rw [hc₀]
  have herase := changePermOn_vm e va perm n 0 c₀
  rw [hvm, hrun] at herase
  obtain ⟨c, hc, hcs⟩ := herase.of_ok
  have ht₀ : TlbTables c₀.vm.mm d := by
    rw [hvm]
    exact ht
  have hend := (@changePermOn_enlarged c₀ e d perm (by rw [hc₀]) (by rw [hvm]; exact hd) hperm va
    n 0 c₀ _ (EnlargedAll.start ht₀) hlow).of_ok hc
  rw [Nat.add_zero] at hend
  rw [← hcs, ← hvm]
  exact ⟨hend.pgdir, fun p hp => hend.huge _ (Or.inr ⟨p, hp, rfl⟩),
    fun p hp hH => hend.renewed _ (Or.inr ⟨p, hp, rfl⟩) hH,
    fun q hq hno => hend.leaf_same hq fun hT => by
      rcases hT with hT | ⟨p, hp, hpq⟩
      · exact hT
      · exact hno p hp hpq⟩

/-! ### Pages that get another translation -/

/-- **The page `q` gets another translation** when the permission of the `n` pages at `first`
becomes `perm`, with `PTE_PS`: it shares its entry of the directory with one of them, and is not
part of a 4 MB page that stays where it is. -/
def Mm.Displaces (m : Mm) (d first n : ℕ) (perm : BitVec 32) (q : ℕ) : Prop :=
  isHuge perm = true ∧ m.Mapped d q ∧ (∃ p ∈ m.walked d n first, p / 1024 = q / 1024) ∧
    ¬ (isHuge (m.word d (q / 1024)) = true ∧
      pgnum (renew perm (m.word d (q / 1024))) / 1024 = pgnum (m.word d (q / 1024)) / 1024)

/-- A page has an entry that is present if and only if it has a translation. -/
theorem Mm.mapped_iff {m : Mm} {d q : ℕ} : m.Mapped d q ↔ m.translate d q ≠ none := by
  unfold Mm.Mapped Mm.translate
  cases hleaf : m.leaf d q with
  | none =>
      refine iff_of_false ?_ fun hc => hc rfl
      rintro ⟨w, b, hw, -⟩
      exact nomatch hw
  | some p =>
      obtain ⟨w, b⟩ := p
      cases b with
      | true =>
          obtain ⟨hP, hH, hw⟩ := Mm.leaf_eq_some hleaf
          rw [Mm.leafPtr_huge hH] at hw
          exact iff_of_true ⟨w, true, rfl, by rw [hw]; exact hP⟩ fun hc => nomatch hc
      | false =>
          dsimp only
          cases hP : isPresent w with
          | true => exact iff_of_true ⟨w, false, rfl, hP⟩ fun hc => nomatch hc
          | false =>
              refine iff_of_false ?_ fun hc => hc rfl
              rintro ⟨w', b', hw', hP'⟩
              obtain ⟨rfl, -⟩ := Prod.mk.inj (Option.some.inj hw')
              exact nomatch hP.symm.trans hP'

theorem Mm.translate_of_huge {m : Mm} {d q : ℕ} {w : BitVec 32} (hw : m.word d (q / 1024) = w)
    (hP : isPresent w = true) (hH : isHuge w = true) :
    m.translate d q = some (pgnum w / 1024 * 1024 + q % 1024, true) := by
  unfold Mm.translate Mm.leaf
  rw [hw, if_pos hP, if_pos hH]

/-- The second component tells whether the entry of the directory is a 4 MB page. -/
theorem Mm.huge_of_translate {m : Mm} {d q f : ℕ} {b : Bool} (h : m.translate d q = some (f, b)) :
    isPresent (m.word d (q / 1024)) = true ∧ isHuge (m.word d (q / 1024)) = b := by
  unfold Mm.translate at h
  cases hleaf : m.leaf d q with
  | none =>
      rw [hleaf] at h
      exact nomatch h
  | some p =>
      obtain ⟨w, b'⟩ := p
      obtain ⟨hP, hH, -⟩ := Mm.leaf_eq_some hleaf
      rw [hleaf] at h
      refine ⟨hP, hH.trans ?_⟩
      cases b' with
      | true => exact (Prod.mk.inj (Option.some.inj h)).2
      | false =>
          dsimp only at h
          split at h
          · exact (Prod.mk.inj (Option.some.inj h)).2
          · exact nomatch h

/-- **When a page keeps its translation** while the permission becomes one with `PTE_PS`. -/
theorem Enlarged.translate_iff {m m' : Mm} {d first n q : ℕ} {perm : BitVec 32}
    (h : Enlarged m m' d first n perm) (hperm : isHuge perm = true) (hq : q / 1024 < pdx uTop)
    (hmapped : m.Mapped d q) :
    m'.translate d q = m.translate d q ↔ ¬ m.Displaces d first n perm q := by
  by_cases htouch : ∃ p ∈ m.walked d n first, p / 1024 = q / 1024
  · obtain ⟨p, hp, hpq⟩ := htouch
    obtain ⟨w', hw'⟩ := h.huge p hp
    rw [hpq] at hw'
    have hnew := Mm.translate_of_huge hw' (isPresent_newPte _ perm)
      ((isHuge_newPte _ perm).trans hperm)
    obtain ⟨⟨f, b⟩, hold⟩ := Option.ne_none_iff_exists'.1 (Mm.mapped_iff.1 hmapped)
    obtain ⟨hP, hH⟩ := Mm.huge_of_translate hold
    have hdisp : m.Displaces d first n perm q ↔ ¬ (isHuge (m.word d (q / 1024)) = true ∧
        pgnum (renew perm (m.word d (q / 1024))) / 1024 = pgnum (m.word d (q / 1024)) / 1024) :=
      ⟨fun hc => hc.2.2.2, fun hc => ⟨hperm, hmapped, ⟨p, hp, hpq⟩, hc⟩⟩
    rw [hdisp, not_not]
    cases b with
    | false =>
        refine iff_of_false (fun hc => ?_) fun hc => ?_
        · rw [hnew, hold] at hc
          exact absurd (Prod.mk.inj (Option.some.inj hc)).2 (by decide)
        · rw [hH] at hc
          exact nomatch hc.1
    | true =>
        have hren := h.renewed p hp (by rw [hpq]; exact hH)
        rw [hpq] at hren
        rw [hnew, Mm.translate_of_huge rfl hP hH, hw'.symm.trans hren, and_iff_right hH]
        constructor
        · intro hc
          have hf := (Prod.mk.inj (Option.some.inj hc)).1
          omega
        · intro hc
          rw [hc]
  · have hsame := h.others q hq fun p hp hpq => htouch ⟨p, hp, hpq⟩
    exact iff_of_true (Mm.translate_congr hsame) fun hc => htouch hc.2.2.1

/-- **When a page beside the range keeps its translation**: one with `PTE_PS` does not displace it.
Where `PTE_PS` is not asked for the range has no 4 MB page. -/
theorem changePerm_beside {s s' : Vm} {e d n : ℕ} {va perm : BitVec 32}
    (ht : TlbTables s.mm d) (hd : s.pgdir e = some d) (hlow : LowPages va 0 n)
    (hrun : changePermFrom e va perm n 0 s = .ok s')
    (hplain : isHuge perm = false →
      ∀ p ∈ s.mm.walked d n (vpn va), isHuge (s.mm.word d (p / 1024)) = false) :
    (∀ e', s'.pgdir e' = s.pgdir e') ∧
      ∀ q, q / 1024 < pdx uTop → q ∉ s.mm.walked d n (vpn va) → s.mm.Mapped d q →
        (s'.mm.translate d q = s.mm.translate d q ↔ ¬ s.mm.Displaces d (vpn va) n perm q) := by
  cases hperm : isHuge perm with
  | true =>
      obtain ⟨hpg, hbig⟩ := changePermFrom_enlarged ht hd hperm hlow hrun
      exact ⟨hpg, fun q hq _ hmapped => hbig.translate_iff hperm hq hmapped⟩
  | false =>
      obtain ⟨hpg, -, hren⟩ := changePermFrom_renewed ht hd hperm hlow (hplain hperm) hrun
      refine ⟨hpg, fun q hq hout _ => ?_⟩
      refine iff_of_true (Mm.translate_congr (hren.others q hq hout)) fun hc => ?_
      exact nomatch hperm.symm.trans hc.1

/-! ### Populating -/

/-- **A call of `vma_populate` that returns has done nothing**: `page_insert` gets `NULL` for the
page. -/
theorem vmaPopulate_same (s : Vm) (e : ℕ) (va size perm : BitVec 32) (hp : Bool) :
    Ends (fun _ => True) (fun r => r.2 = s) (vmaPopulate s e va size perm hp) := by
  unfold vmaPopulate
  generalize (roundUp size (BitVec.ofNat 32 pgSize)).toNat / (pgSize * if hp then kb else 1) = n
  cases n with
  | zero => exact rfl
  | succ n =>
      rw [populateFrom, ends_bind]
      refine (pageAlloc_none s.mm _).post ?_
      rintro ⟨pg, mm⟩ hmm
      cases pg with
      | none =>
          obtain rfl : mm = s.mm := (hmm rfl).1
          exact rfl
      | some pg =>
          dsimp only
          rw [ends_bind]
          unfold pageInsert
          cases Vm.pgdir _ e with
          | none => exact True.intro
          | some d => exact True.intro

end Jos
