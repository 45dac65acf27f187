/-
**Looking up and removing what is not mapped.**

`page_lookup` and `page_remove` of `kern/pmap.c` ask `pgdir_walk` for the entry of an address and go
on as soon as there is an entry: neither of them looks at its present bit. The entry of a page that
was never touched, or whose page is on the disk, is taken for a mapping.

Main definitions:

* `Jos.pageLookupStore` — `page_lookup` with the entry that it stores;
* `Jos.Mm.mappedPage` — the page that an address is mapped to;
* `Jos.Undisturbed` — every word, every reference and the free list are as before;
* `Jos.LookupRight`, `Jos.RemoveHarmless` — what is asked of the two functions.

Main results:

* `Jos.lookupRight_iff` — what `page_lookup` finds is right when there is no entry, or a present one
  for a page of memory;
* `Jos.removeHarmless_iff` — `page_remove` is harmless without a mapping only where the page table
  is missing;
* `Jos.unmapped_harmless_iff` — **the two together**.
-/

import JosKernel.StrayPages

set_option relaxedAutoImplicit false
set_option autoImplicit false

namespace Jos

open Outcome

/-! ### The page of an address -/

/-- `page_lookup(pgdir, va, &pte)`: the page, and the entry that is stored. -/
def pageLookupStore (s : Vm) (pgdir : Option ℕ) (va : BitVec 32) :
    Except Crash (Option ℕ × Option PtePtr) := do
  if pgdir = none then throw (.panic "page_lookup: pgdir is NULL!")
  let pte ← pgdirFind s pgdir va
  match pte with
  | none => pure (none, none)
  | some pte => do
      let pp ← pa2page s.mm.npages (pteAddr (s.pte pte))
      pure (some pp, some pte)

/-- The caller of `page_lookup` that does not ask for the entry. -/
theorem pageLookupStore_fst (s : Vm) (pgdir : Option ℕ) (va : BitVec 32) :
    pageLookup s pgdir va = Prod.fst <$> pageLookupStore s pgdir va := by
  unfold pageLookup pageLookupStore
  cases pgdir with
  | none => rfl
  | some d =>
      rw [if_neg (fun hc => nomatch hc)]
      cases hfind : pgdirFind s (some d) va with
      | error c => rfl
      | ok r =>
          cases r with
          | none => rfl
          | some pte =>
              change (pa2page s.mm.npages (pteAddr (s.pte pte)) >>= fun pp => pure (some pp)) =
                Prod.fst <$> (pa2page s.mm.npages (pteAddr (s.pte pte)) >>= fun pp =>
                  pure (some pp, some pte))
              cases pa2page s.mm.npages (pteAddr (s.pte pte)) with
              | error c => rfl
              | ok pp => rfl

/-- The page that the page `q` of an address space is mapped to; a 4 MB page goes by its first
frame. -/
def Mm.mappedPage (m : Mm) (d q : ℕ) : Option ℕ :=
  match m.leaf d q with
  | none => none
  | some (w, _) => if isPresent w then some (pgnum w) else none

theorem Mm.mappedPage_absent {m : Mm} {d q : ℕ} (h : m.leaf d q = none) :
    m.mappedPage d q = none := by
  rw [Mm.mappedPage, h]

theorem Mm.mappedPage_leaf {m : Mm} {d q : ℕ} {w : BitVec 32} {b : Bool}
    (h : m.leaf d q = some (w, b)) :
    m.mappedPage d q = if isPresent w then some (pgnum w) else none := by
  rw [Mm.mappedPage, h]

/-- **Nothing that a removal could change has changed**: no entry of any page table, no reference,
and not the free list. -/
structure Undisturbed (s s' : Vm) : Prop where
  word : ∀ f i, s'.mm.word f i = s.mm.word f i
  ref : ∀ f, s'.ref f = s.ref f
  freeList : s'.mm.pageFreeList = s.mm.pageFreeList
  link : s'.mm.link = s.mm.link

/-- **`page_lookup` returns the page of a mapped address, and `NULL` for the others.** -/
def LookupRight (s : Vm) (d : ℕ) (va : BitVec 32) : Prop :=
  ∃ pte, pageLookupStore s (some d) va = .ok (s.mm.mappedPage d (vpn va), pte)

/-- **`page_remove` does nothing for an address that is not mapped.** -/
def RemoveHarmless (s : Vm) (d : ℕ) (va : BitVec 32) : Prop :=
  s.mm.mappedPage d (vpn va) = none → ∃ s', pageRemove s (some d) va = .ok s' ∧ Undisturbed s s'

/-- The entry of an address, if there is one, is present; its page and the page table are pages of
memory. -/
def Resolves (s : Vm) (d : ℕ) (va : BitVec 32) : Prop :=
  ∀ w b, s.mm.leaf d (vpn va) = some (w, b) →
    isPresent w = true ∧ pgnum w < s.mm.npages ∧ (b = false →
      pgnum (s.mm.word d (vpn va / 1024)) < s.mm.npages)

section Unmapped

variable {s : Vm} {d : ℕ} {va : BitVec 32}

/-! ### `page_lookup` -/

/-- The walk succeeds when the page table is a page of memory. -/
theorem pgdirFind_of_leaf {w : BitVec 32} {b : Bool} (h : s.mm.leaf d (vpn va) = some (w, b))
    (ht : b = false → pgnum (s.mm.word d (vpn va / 1024)) < s.mm.npages) :
    pgdirFind s (some d) va = .ok (some (s.mm.leafPtr d (vpn va))) := by
  obtain ⟨hP, hH, -⟩ := Mm.leaf_eq_some h
  have hpde : s.pte ⟨d, pdx va⟩ = s.mm.word d (vpn va / 1024) := by rw [pdx_eq]; rfl
  unfold pgdirFind
  dsimp only
  rw [hpde, if_pos hP]
  unfold walkEnd
  cases b with
  | true =>
      rw [hpde, hH, Mm.leafPtr_huge hH, ← pdx_eq]
      rfl
  | false =>
      have hkaddr : kaddr s.mm.npages (pteAddr (s.mm.word d (vpn va / 1024))) =
          .ok (pteAddr (s.mm.word d (vpn va / 1024)) + kernBase) := by
        rw [kaddr, pgnum_pteAddr, if_neg (Nat.not_le.2 (ht rfl))]
        rfl
      rw [hpde, hH, hkaddr, Mm.leafPtr_small hH, ← ptx_eq, pgnum_pteAddr]
      rfl

theorem pageLookupStore_of_leaf {w : BitVec 32} {b : Bool} (h : s.mm.leaf d (vpn va) = some (w, b))
    (ht : b = false → pgnum (s.mm.word d (vpn va / 1024)) < s.mm.npages)
    (hw : pgnum w < s.mm.npages) :
    pageLookupStore s (some d) va = .ok (some (pgnum w), some (s.mm.leafPtr d (vpn va))) := by
  have hword : s.pte (s.mm.leafPtr d (vpn va)) = w := (Mm.leaf_eq_some h).2.2.symm
  have hpage : pa2page s.mm.npages (pteAddr w) = .ok (pgnum w) := by
    rw [pa2page, pgnum_pteAddr, if_neg (Nat.not_le.2 hw)]
    rfl
  unfold pageLookupStore
  rw [if_neg (fun hc => by cases hc), pgdirFind_of_leaf h ht]
  change (pa2page s.mm.npages (pteAddr (s.pte (s.mm.leafPtr d (vpn va)))) >>= _) = _
  rw [hword, hpage]
  rfl

/-- Where there is an entry, its page is returned: the two frames that are used are pages of
memory. -/
theorem pageLookupStore_found {w : BitVec 32} {b : Bool} (h : s.mm.leaf d (vpn va) = some (w, b))
    {r : Option ℕ × Option PtePtr} (hrun : pageLookupStore s (some d) va = .ok r) :
    r.1 = some (pgnum w) ∧ pgnum w < s.mm.npages ∧
      (b = false → pgnum (s.mm.word d (vpn va / 1024)) < s.mm.npages) := by
  obtain ⟨hP, hH, hw⟩ := Mm.leaf_eq_some h
  have hpde : s.pte ⟨d, pdx va⟩ = s.mm.word d (vpn va / 1024) := by rw [pdx_eq]; rfl
  unfold pageLookupStore at hrun
  rw [if_neg (fun hc => by cases hc)] at hrun
  obtain ⟨q, hfind, hrun⟩ := bind_eq_ok.1 hrun
  have htable : b = false → pgnum (s.mm.word d (vpn va / 1024)) < s.mm.npages := by
    rintro rfl
    by_contra hc
    unfold pgdirFind walkEnd at hfind
    dsimp only at hfind
    rw [hpde, if_pos hP, hH] at hfind
    rw [if_neg (by simp), kaddr, pgnum_pteAddr, if_pos (Nat.not_lt.1 hc)] at hfind
    cases hfind
  rw [pgdirFind_of_leaf h htable] at hfind
  obtain rfl := Except.ok.inj hfind
  obtain ⟨pp, hpage, hr⟩ := bind_eq_ok.1 hrun
  obtain rfl := Except.ok.inj hr
  have hword : s.pte (s.mm.leafPtr d (vpn va)) = w := hw.symm
  rw [hword, pa2page, pgnum_pteAddr] at hpage
  by_cases hlt : s.mm.npages ≤ pgnum w
  · rw [if_pos hlt] at hpage
    cases hpage
  · rw [if_neg hlt] at hpage
    exact ⟨congrArg some (Except.ok.inj hpage).symm, Nat.not_le.1 hlt, htable⟩

/-- Without a page table, nothing is found. -/
theorem pageLookupStore_absent (h : s.mm.leaf d (vpn va) = none) :
    pageLookupStore s (some d) va = .ok (none, none) := by
  have hpde : s.pte ⟨d, pdx va⟩ = s.mm.word d (vpn va / 1024) := by rw [pdx_eq]; rfl
  unfold pageLookupStore pgdirFind
  dsimp only
  rw [if_neg (fun hc => nomatch hc), hpde, Mm.leaf_eq_none.1 h, if_neg Bool.false_ne_true]
  rfl

/-- **When `page_lookup` is right.** -/
theorem lookupRight_iff : LookupRight s d va ↔ Resolves s d va := by
  cases hleaf : s.mm.leaf d (vpn va) with
  | none =>
      refine iff_of_true ⟨none, ?_⟩ fun w b h => ?_
      · rw [pageLookupStore_absent hleaf, Mm.mappedPage_absent hleaf]
      · rw [hleaf] at h
        exact nomatch h
  | some leaf =>
      obtain ⟨w, b⟩ := leaf
      rw [LookupRight, Mm.mappedPage_leaf hleaf]
      constructor
      · rintro ⟨pte, hrun⟩ w' b' h
        obtain ⟨rfl, rfl⟩ := Prod.mk.inj (Option.some.inj (hleaf.symm.trans h))
        obtain ⟨hpage, hframe, htable⟩ := pageLookupStore_found hleaf hrun
        refine ⟨?_, hframe, htable⟩
        by_contra hc
        rw [if_neg hc] at hpage
        exact nomatch hpage
      · intro hres
        obtain ⟨hP, hframe, htable⟩ := hres w b hleaf
        rw [if_pos hP]
        exact ⟨_, pageLookupStore_of_leaf hleaf htable hframe⟩

/-! ### `page_remove` -/

/-- Where there is an entry, `page_remove` takes a reference from its page, whether it is present or
not. -/
theorem pageRemove_takes {w : BitVec 32} {b : Bool} (h : s.mm.leaf d (vpn va) = some (w, b)) :
    Ends (fun _ => True) (fun s' => s'.ref (pgnum w) ≠ s.ref (pgnum w))
      (pageRemove s (some d) va) := by
  have hword : s.pte (s.mm.leafPtr d (vpn va)) = w := (Mm.leaf_eq_some h).2.2.symm
  refine pageRemove_rule (P := fun s₁ => s₁.ref (pgnum w) ≠ s.ref (pgnum w)) (fun hc => ?_)
    (fun _ pp hlt hpp _ => ?_) fun s₁ h₁ => ⟨fun _ => h₁, fun _ => h₁⟩
  · rw [h] at hc
    exact nomatch hc
  · rw [hword] at hpp
    subst hpp
    refine (releaseIf_strays s (Nat.lt_of_lt_of_le hlt s.mm.npages_le)).post fun s₁ h₁ => ?_
    rw [h₁.ref]
    intro hc
    have hone : s.ref (pgnum w) - 1 + 1 = s.ref (pgnum w) + 1 := congrArg (· + 1) hc
    rw [BitVec.sub_add_cancel] at hone
    generalize s.ref (pgnum w) = r at hone
    have : r.toNat = (r.toNat + 1) % 2 ^ 16 := congrArg BitVec.toNat hone
    omega

/-- **When `page_remove` leaves an address without a mapping alone.** -/
theorem removeHarmless_iff :
    RemoveHarmless s d va ↔ s.mm.leaf d (vpn va) = none ∨ (s.mm.mappedPage d (vpn va)).isSome := by
  cases hleaf : s.mm.leaf d (vpn va) with
  | none =>
      refine iff_of_true (fun _ => ⟨s, ?_, fun _ _ => rfl, fun _ => rfl, rfl, rfl⟩) (Or.inl rfl)
      unfold pageRemove
      rw [if_neg (fun hc => nomatch hc), pageLookupStore_fst, pageLookupStore_absent hleaf]
      rfl
  | some leaf =>
      obtain ⟨w, b⟩ := leaf
      constructor
      · intro hharm
        refine Or.inr ?_
        by_contra hc
        obtain ⟨s', hrun, hsame⟩ := hharm (Option.not_isSome_iff_eq_none.1 hc)
        exact (pageRemove_takes hleaf).of_ok hrun (hsame.ref _)
      · rintro (hc | hsome) hnone
        · exact nomatch hc
        · rw [hnone] at hsome
          exact nomatch hsome

/-- A page that is found rightly is mapped. -/
theorem Resolves.mapped (h : Resolves s d va) :
    s.mm.leaf d (vpn va) = none ∨ (s.mm.mappedPage d (vpn va)).isSome := by
  cases hleaf : s.mm.leaf d (vpn va) with
  | none => exact Or.inl rfl
  | some leaf =>
      refine Or.inr ?_
      rw [Mm.mappedPage_leaf hleaf, if_pos (h _ _ hleaf).1]
      rfl

end Unmapped

/-- **Looking up and removing what is not mapped.** The two functions do what they should for an
address exactly if it has no entry, or a present one; the removal alone needs no more than that
there is no entry. -/
theorem unmapped_harmless_iff (s : Vm) (d : ℕ) (va : BitVec 32) :
    (LookupRight s d va ∧ RemoveHarmless s d va ↔ Resolves s d va) ∧
      (RemoveHarmless s d va ↔ s.mm.leaf d (vpn va) = none ∨ (s.mm.mappedPage d (vpn va)).isSome) :=
  ⟨⟨fun h => lookupRight_iff.1 h.1, fun h => ⟨lookupRight_iff.2 h, removeHarmless_iff.2 h.mapped⟩⟩,
    removeHarmless_iff⟩

/-- The directory in the frame 3 has a page table in the frame 2, and every word of it is 0. -/
def emptyTable : Vm :=
  Vm.ofWords 4 frames_four (fun f i => if f = 3 ∧ i = 0 then tablePde 2 else 0) fun _ => .ofDir 3

/-- **An entry that is 0**: the page 0 is found for it, and it cannot be removed. -/
theorem emptyTable_not_harmless : emptyTable.mm.mappedPage 3 (vpn 0) = none ∧
    pageLookup emptyTable (some 3) 0 = .ok (some 0) ∧
    pageRemove emptyTable (some 3) 0 = .error (.panic "page_remove: PAGE REF COUNT ALREADY 0") ∧
    ¬ LookupRight emptyTable 3 0 ∧ ¬ RemoveHarmless emptyTable 3 0 := by
  have hword : ∀ f i, emptyTable.mm.word f i = if f = 3 ∧ i = 0 then tablePde 2 else 0 := 
    fun f i => Mm.word_bytesOf (w := fun f i => if f = 3 ∧ i = 0 then tablePde 2 else 0) rfl i
  have hpde : emptyTable.mm.word 3 (vpn 0 / 1024) = tablePde 2 :=
    (hword ..).trans (if_pos (by decide))
  have hleaf : emptyTable.mm.leaf 3 (vpn 0) = some (0, false) := by
    rw [Mm.leaf_of_table (by decide) hpde, hword]
    rfl
  have hnone : emptyTable.mm.mappedPage 3 (vpn 0) = none := by
    rw [Mm.mappedPage_leaf hleaf]
    rfl
  have hlookup : pageLookup emptyTable (some 3) 0 = .ok (some 0) := by
    have hfound : pageLookupStore emptyTable (some 3) 0 = .ok (some (pgnum 0), _) :=
      pageLookupStore_of_leaf hleaf (fun _ => by rw [hpde]; decide) (by decide)
    rw [pageLookupStore_fst, hfound]
    rfl
  refine ⟨hnone, hlookup, ?_, fun h => ?_, fun h => ?_⟩
  · unfold pageRemove
    rw [if_neg (fun hc => nomatch hc), hlookup]
    rfl
  · exact absurd (lookupRight_iff.1 h 0 false hleaf).1 (by decide)
  · rcases removeHarmless_iff.1 h with hc | hc
    · rw [hleaf] at hc
      exact nomatch hc
    · rw [hnone] at hc
      exact nomatch hc

end Jos
