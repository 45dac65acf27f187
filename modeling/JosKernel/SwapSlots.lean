/-
**Slots of the swap area.**

A page that is swapped out occupies eight sectors from its *slot* on, and `swap_map` has a bit for
every sector in use. `find_swap_spot` looks for one bit that is clear and trusts that the seven
after it are clear too. `Jos.BitInv` is what makes this true: the bits that are set are those of
whole slots, up to the sectors that the tasklet at work has still to write or has already read. Two
rounds can break it: the last round of a `page_out` whose page is free gives back one bit of eight,
and the first round of a `page_out` may find only the end of the map or nothing at all. A page can
be freed while its `page_out` waits, and a free page that has been left on the inactive list can get
one.

Main definitions:

* `Jos.SlotSafe` — the condition on a step;
* `Jos.TaskInv`, `Jos.BitInv` — the invariant;
* `Jos.SlotsDisjoint`, `Jos.StartsWell` — what it is good for.

Main results:

* `Jos.BitInv.goodSpot` — `find_swap_spot` finds a free slot;
* `Jos.SlotInv.step` — one step;
* `Jos.swap_slots_disjoint` — whole runs.
-/

import JosKernel.Swap

set_option relaxedAutoImplicit false
set_option autoImplicit false

namespace Jos

open LabelledRun

/-! ### The property and the condition -/

/-- The tasklet at work: the first of the list, once it has transferred a sector. -/
def Swap.atWork (s : Swap) : Option SwapTask := s.tList.head?.filter fun t => 0 < t.count

/-- Two slots do not overlap. -/
def Apart (a b : ℕ) : Prop := a + nSectors ≤ b ∨ b + nSectors ≤ a

/-- A slot is on the disk. -/
def InArea (a : ℕ) : Prop := 1 ≤ a ∧ a + nSectors ≤ sizeSwapMap

/-- **The outstanding slots**, recorded in entries or being written by the tasklet at work, do not
overlap and are on the disk. -/
structure SlotsDisjoint (s : Swap) : Prop where
  recorded : ∀ k, isSwapped (s.ptes k) = true → InArea (pgnum (s.ptes k))
  apart : ∀ k k', isSwapped (s.ptes k) = true → isSwapped (s.ptes k') = true → k ≠ k' →
    Apart (pgnum (s.ptes k)) (pgnum (s.ptes k'))
  current : ∀ t ∈ s.atWork, t.fptr = .pageOut →
    InArea t.sectorStart ∧ ∀ k, isSwapped (s.ptes k) = true → Apart (pgnum (s.ptes k)) t.sectorStart

/-- A round that starts a `page_out` finds a slot on the disk that nobody uses. -/
def StartsWell (s : Swap) (op : SwapOp) : Prop :=
  ∀ ready t, op = .round ready → t ∈ s.tList.head? → t.fptr = .pageOut → t.count = 0 →
    InArea (findSwapSpot s.swapMap) ∧
      ∀ k, isSwapped (s.ptes k) = true → Apart (pgnum (s.ptes k)) (findSwapSpot s.swapMap)

/-- **A step that keeps the slots in order**: no page is freed that is to be swapped out; a page
that is to be swapped out is in use, is not being swapped out already, and is found in a page table;
and when a `page_out` starts a sector is free that is not among the last eight. -/
def SlotSafe (s : Swap) : SwapOp → Prop
  | .free e v => ∀ t ∈ s.tList, t.fptr = .pageOut → t.pi ≠ pgnum (s.ptes (.user e v))
  | .reclaim pp decoy =>
      s.tList.length < nTasklets → (s.pages pp).ref = 1 ∧ (s.pages pp).alloc = true ∧
      (∀ t ∈ s.tList, t.fptr = .pageOut → t.pi ≠ pp) ∧ ∀ e j, s.findPteAll pp decoy ≠
        some (.big e j)
  | .round _ => ∀ t ∈ s.tList.head?, t.fptr = .pageOut → t.count = 0 →
      ∃ i, 1 ≤ i ∧ i + nSectors ≤ sizeSwapMap ∧ getBit s.swapMap i = false
  | _ => True

/-! ### The invariant -/

/-- The tasklets, and the entries and pages they work on. -/
structure TaskInv (s : Swap) : Prop where
  entries : (s.tList.map SwapTask.entry).Nodup
  frames : (s.tList.map SwapTask.pi).Nodup
  out : ∀ t ∈ s.tList, t.fptr = .pageOut → isPresent (s.ptes t.entry) = true ∧
    t.pi = pgnum (s.ptes t.entry) ∧ (s.pages t.pi).ref = 1 ∧ (s.pages t.pi).alloc = true
  coming : ∀ t ∈ s.tList, t.fptr = .pageIn → isSwapped (s.ptes t.entry) = true ∧
    s.ptes t.entry &&& pteAvail ≠ 0 ∧ t.sectorStart = pgnum (s.ptes t.entry) ∧ t.pi < 2 ^ 20 ∧
    (s.pages t.pi).ref = 0 ∧ (s.pages t.pi).alloc = true
  small : ∀ e j, isSwapped (s.ptes (.big e j)) = false ∧ ∀ t ∈ s.tList, t.entry ≠ .big e j
  fresh : ∀ t ∈ s.tList.tail, t.count = 0
  count : ∀ t ∈ s.tList, t.count ≤ nSectors

/-- A slot begins one past a multiple of eight and ends inside the map. -/
def Slot (a : ℕ) : Prop := a % nSectors = 1 ∧ a + nSectors ≤ sizeSwapMap

/-- The sectors of the entry `k` that the tasklet at work has already read. -/
def doneIn (s : Swap) (k : PteId) : ℕ :=
  match s.atWork with
  | some t => if t.fptr = .pageIn ∧ t.entry = k then t.count else 0
  | none => 0

/-- The sectors that are in use. -/
def Occupied (s : Swap) (i : ℕ) : Prop :=
  (∃ k, isSwapped (s.ptes k) = true ∧ pgnum (s.ptes k) + doneIn s k ≤ i ∧
    i < pgnum (s.ptes k) + nSectors) ∨
  ∃ t ∈ s.atWork, t.fptr = .pageOut ∧ t.sectorStart ≤ i ∧ i < t.sectorStart + t.count

/-- The map and the slots agree. -/
structure BitInv (s : Swap) : Prop where
  slots : ∀ k, isSwapped (s.ptes k) = true → Slot (pgnum (s.ptes k))
  inj : ∀ k k', isSwapped (s.ptes k) = true → isSwapped (s.ptes k') = true →
    pgnum (s.ptes k) = pgnum (s.ptes k') → k = k'
  current : ∀ t ∈ s.atWork, t.fptr = .pageOut →
    Slot t.sectorStart ∧ ∀ k, isSwapped (s.ptes k) = true → pgnum (s.ptes k) ≠ t.sectorStart
  bits : ∀ i, getBit s.swapMap i = true ↔ Occupied s i

/-- **The invariant of the swap subsystem.** -/
structure SlotInv (s : Swap) : Prop where
  tasks : TaskInv s
  bits : BitInv s

/-- Different slots do not overlap. -/
theorem Slot.apart {a b : ℕ} (ha : Slot a) (hb : Slot b) (hne : a ≠ b) : Apart a b := by
  simp only [Slot, nSectors] at ha hb
  simp only [Apart, nSectors]
  omega

theorem Slot.inArea {a : ℕ} (ha : Slot a) : InArea a := by
  simp only [Slot, nSectors] at ha
  simp only [InArea, nSectors]
  omega

/-- A sector of one slot is not in another. -/
theorem Slot.eq_of_mem {a b i : ℕ} (ha : Slot a) (hb : Slot b) (hai : a ≤ i)
    (hia : i < a + nSectors) (hbi : b ≤ i) (hib : i < b + nSectors) : a = b := by
  by_contra hne
  rcases ha.apart hb hne with h | h <;> omega

theorem BitInv.slotsDisjoint {s : Swap} (h : BitInv s) : SlotsDisjoint s where
  recorded k hk := (h.slots k hk).inArea
  apart k k' hk hk' hne := (h.slots k hk).apart (h.slots k' hk') fun heq =>
    hne (h.inj k k' hk hk' heq)
  current t ht hf := by
    obtain ⟨hslot, hfree⟩ := h.current t ht hf
    exact ⟨hslot.inArea, fun k hk => (h.slots k hk).apart hslot (hfree k hk)⟩

theorem Swap.atWork_none {s : Swap} (h : ∀ t ∈ s.tList.head?, t.count = 0) : s.atWork = none := by
  unfold Swap.atWork
  cases hh : s.tList.head? with
  | none => rfl
  | some t =>
      rw [Option.filter_some, if_neg]
      simp [h t (by rw [hh]; rfl)]

theorem Swap.atWork_cons {s : Swap} {t : SwapTask} {rest : List SwapTask} (hl : s.tList = t :: rest)
    (ht : 0 < t.count) : s.atWork = some t := by
  rw [Swap.atWork, hl, List.head?_cons, Option.filter_some, if_pos]
  simpa using ht

/-- A tasklet that is queued is not at work. -/
theorem Swap.atWork_append {s s' : Swap} {t : SwapTask} (hl : s'.tList = s.tList ++ [t])
    (ht : t.count = 0) : s'.atWork = s.atWork := by
  unfold Swap.atWork
  rw [hl]
  cases s.tList with
  | nil => simp [ht]
  | cons u rest => rfl

/-- **`find_swap_spot` finds a free slot** when a sector that is not among the last eight is
free. -/
theorem BitInv.goodSpot {s : Swap} {t : SwapTask} (h : BitInv s) (hh : s.tList.head? = some t)
    (hc : t.count = 0)
    (hroom : ∃ i, 1 ≤ i ∧ i + nSectors ≤ sizeSwapMap ∧ getBit s.swapMap i = false) :
    Slot (findSwapSpot s.swapMap) ∧ getBit s.swapMap (findSwapSpot s.swapMap) = false ∧
      ∀ k, isSwapped (s.ptes k) = true → pgnum (s.ptes k) ≠ findSwapSpot s.swapMap := by
  have hn : nSectors = 8 := rfl
  obtain ⟨i, hi, hirange, hibit⟩ := hroom
  -- while a `page_out` waits to start, only whole slots are in use
  have hidle : s.atWork = none := by
    refine Swap.atWork_none fun u hu => ?_
    rw [hh, Option.mem_some_iff] at hu
    rw [← hu]
    exact hc
  have hocc : ∀ j, getBit s.swapMap j = true ↔ ∃ k, isSwapped (s.ptes k) = true ∧
      pgnum (s.ptes k) ≤ j ∧ j < pgnum (s.ptes k) + nSectors := by
    intro j
    rw [h.bits]
    simp [Occupied, doneIn, hidle]
  rcases findSwapSpot_spec s.swapMap with ⟨-, hfull⟩ | ⟨hpos, hlt, hbit, hbefore⟩
  · rw [hfull i hi (by omega)] at hibit
    exact absurd hibit (by simp)
  generalize findSwapSpot s.swapMap = spot at *
  have hle : spot ≤ i := by
    by_contra hgt
    rw [hbefore i hi (by omega)] at hibit
    exact absurd hibit (by simp)
  have hmod : spot % nSectors = 1 := by
    by_contra hne
    have hspot : spot ≠ 1 := by
      rintro rfl
      exact hne (by decide)
    -- the bit before is set, in a slot that reaches up to `spot`
    obtain ⟨k, hk, hlo, hhi⟩ := (hocc (spot - 1)).1 (hbefore (spot - 1) (by omega) (by omega))
    have hslot := (h.slots k hk).1
    rw [hn] at hslot hhi hne
    rw [(hocc spot).2 ⟨k, hk, by omega, by rw [hn]; omega⟩] at hbit
    exact absurd hbit (by simp)
  have hend : spot + nSectors ≤ sizeSwapMap := by
    rw [hn] at hmod hirange ⊢
    omega
  refine ⟨⟨hmod, hend⟩, hbit, fun k hk heq => ?_⟩
  rw [(hocc spot).2 ⟨k, hk, by omega, by rw [hn]; omega⟩] at hbit
  exact absurd hbit (by simp)

/-! ### Steps that leave the map alone -/

/-- The map and the slots agree as long as the recorded slots and the tasklet at work stay the
same. -/
theorem BitInv.congr {s s' : Swap} (h : BitInv s)
    (hsw : ∀ k, isSwapped (s'.ptes k) = isSwapped (s.ptes k))
    (hnum : ∀ k, isSwapped (s.ptes k) = true → pgnum (s'.ptes k) = pgnum (s.ptes k))
    (hwork : s'.atWork = s.atWork) (hmap : s'.swapMap = s.swapMap) : BitInv s' := by
  refine ⟨fun k hk => ?_, fun k k' hk hk' heq => ?_, fun t ht hf => ?_, fun i => ?_⟩
  · rw [hsw] at hk
    rw [hnum k hk]
    exact h.slots k hk
  · rw [hsw] at hk hk'
    rw [hnum k hk, hnum k' hk'] at heq
    exact h.inj k k' hk hk' heq
  · rw [hwork] at ht
    obtain ⟨hslot, hfree⟩ := h.current t ht hf
    refine ⟨hslot, fun k hk => ?_⟩
    rw [hsw] at hk
    rw [hnum k hk]
    exact hfree k hk
  · have hdone : ∀ k, doneIn s' k = doneIn s k := fun k => by rw [doneIn, doneIn, hwork]
    rw [hmap, h.bits, Occupied, Occupied, hwork]
    refine or_congr (exists_congr fun k => ?_) Iff.rfl
    rw [hsw, hdone]
    refine and_congr_right fun hk => ?_
    rw [hnum k hk]

theorem not_swapped_of_present {pte : BitVec 32} (h : isPresent pte = true) :
    isSwapped pte = false := by
  rw [isSwapped, h]
  rfl

/-- One entry `k` and one page `pp` change that no tasklet in the list works on. -/
theorem TaskInv.change {s s' : Swap} (h : TaskInv s) {k : PteId} {pp : ℕ}
    (hptes : ∀ k' ≠ k, s'.ptes k' = s.ptes k') (hpages : ∀ q ≠ pp, s'.pages q = s.pages q)
    (hsub : s'.tList.Sublist s.tList) (hfresh : ∀ t ∈ s'.tList.tail, t.count = 0)
    (hentry : ∀ t ∈ s'.tList, t.entry ≠ k) (hpage : ∀ t ∈ s'.tList, t.pi ≠ pp)
    (hsmall : ∀ e j, k = .big e j → isSwapped (s'.ptes k) = false) : TaskInv s' := by
  refine
    { entries := h.entries.sublist (hsub.map _), frames := h.frames.sublist (hsub.map _), out := ?_,
      coming := ?_, small := fun e j => ⟨?_, fun t ht => (h.small e j).2 t (hsub.subset ht)⟩,
      fresh := hfresh, count := fun t ht => h.count t (hsub.subset ht) }
  · intro t ht hf
    rw [hptes _ (hentry t ht), hpages _ (hpage t ht)]
    exact h.out t (hsub.subset ht) hf
  · intro t ht hf
    rw [hptes _ (hentry t ht), hpages _ (hpage t ht)]
    exact h.coming t (hsub.subset ht) hf
  · by_cases hk : k = .big e j
    · rw [← hk]
      exact hsmall e j hk
    · rw [hptes _ fun h => hk h.symm]
      exact (h.small e j).1

theorem isSwapped_zero : isSwapped 0 = false := by decide

theorem isPresent_zero : isPresent 0 = false := by decide

namespace TaskInv

variable {s : Swap} {t : SwapTask}

/-- The entries of tasklets are present or record a slot. -/
theorem entry_used (h : TaskInv s) (ht : t ∈ s.tList) :
    isPresent (s.ptes t.entry) = true ∨ isSwapped (s.ptes t.entry) = true := by
  cases hf : t.fptr with
  | pageOut => exact Or.inl (h.out t ht hf).1
  | pageIn => exact Or.inr (h.coming t ht hf).1

/-- The pages of tasklets are in use. -/
theorem page_alloc (h : TaskInv s) (ht : t ∈ s.tList) : (s.pages t.pi).alloc = true := by
  cases hf : t.fptr with
  | pageOut => exact (h.out t ht hf).2.2.2
  | pageIn => exact (h.coming t ht hf).2.2.2.2.2

/-- No tasklet works on a free page. -/
theorem page_ne (h : TaskInv s) {pp : ℕ} (hpp : (s.pages pp).alloc = false) (ht : t ∈ s.tList) :
    t.pi ≠ pp := by
  rintro rfl
  rw [h.page_alloc ht] at hpp
  exact nomatch hpp

/-- An entry that is neither present nor records a slot belongs to no tasklet. -/
theorem entry_ne (h : TaskInv s) {k : PteId} (hpres : isPresent (s.ptes k) = false)
    (hswap : isSwapped (s.ptes k) = false) (ht : t ∈ s.tList) : t.entry ≠ k := by
  rintro rfl
  rcases h.entry_used ht with hp | hs
  · exact absurd hp (by simp [hpres])
  · exact absurd hs (by simp [hswap])

end TaskInv

/-- A page is mapped at an entry that was neither present nor recorded a slot. -/
theorem SlotInv.insert {s : Swap} (h : SlotInv s) {e v pp : ℕ} {perm : BitVec 12}
    (hpres : isPresent (s.ptes (.user e v)) = false)
    (hswap : isSwapped (s.ptes (.user e v)) = false) (hpp : s.available pp) :
    SlotInv (s.insert e v pp perm) := by
  have hself : (s.insert e v pp perm).ptes (.user e v) = page2pa pp ||| perm.setWidth 32 ||| pteP :=
    Function.update_self ..
  have hptes : ∀ k ≠ .user e v, (s.insert e v pp perm).ptes k = s.ptes k :=
    fun k hk => Function.update_of_ne hk ..
  have hpages : ∀ q ≠ pp, (s.insert e v pp perm).pages q = s.pages q :=
    fun q hq => Function.update_of_ne hq ..
  refine ⟨h.tasks.change hptes hpages (List.Sublist.refl _) h.tasks.fresh ?_ ?_ ?_, ?_⟩
  · exact fun t ht => h.tasks.entry_ne hpres hswap ht
  · exact fun t ht => h.tasks.page_ne hpp.2.1 ht
  · simp
  · refine h.bits.congr (fun k => ?_) (fun k hk => ?_) rfl rfl
    · by_cases hke : k = .user e v
      · rw [hke, hself, hswap]
        exact not_swapped_of_present (isPresent_insertPte pp perm)
      · rw [hptes _ hke]
    · by_cases hke : k = .user e v
      · rw [hke, hswap] at hk
        exact absurd hk (by simp)
      · rw [hptes _ hke]

/-- A page is mapped at an entry that was empty. -/
theorem SlotInv.map {s : Swap} (h : SlotInv s) {e v pp : ℕ} {perm : BitVec 12}
    (hen : (SwapOp.map e v pp perm).Enabled s) : SlotInv (s.insert e v pp perm) := by
  obtain ⟨hzero, -, hpp, -⟩ := hen
  exact h.insert (by rw [hzero, isPresent_zero]) (by rw [hzero, isSwapped_zero]) hpp

/-- A page that is not to be swapped out is freed. -/
theorem SlotInv.free {s s' : Swap} (h : SlotInv s) {e v : ℕ}
    (hp : isPresent (s.ptes (.user e v)) = true)
    (hsafe : ∀ t ∈ s.tList, t.fptr = .pageOut → t.pi ≠ pgnum (s.ptes (.user e v)))
    (hr : s.remove (.user e v) = Except.ok s') : SlotInv s' := by
  obtain ⟨href, page, rfl⟩ := remove_cases hr
  generalize hs' : (s.setPage (pgnum (s.ptes (.user e v))) page).setPte (.user e v) 0 = s'
  have hself : s'.ptes (.user e v) = 0 := by
    rw [← hs']
    exact Function.update_self ..
  have hptes : ∀ k ≠ .user e v, s'.ptes k = s.ptes k := by
    intro k hk
    rw [← hs']
    exact Function.update_of_ne hk ..
  have hpages : ∀ q ≠ pgnum (s.ptes (.user e v)), s'.pages q = s.pages q := by
    intro q hq
    rw [← hs']
    exact Function.update_of_ne hq ..
  have htl : s'.tList = s.tList := (congrArg Swap.tList hs'.symm).trans rfl
  have hmap : s'.swapMap = s.swapMap := (congrArg Swap.swapMap hs'.symm).trans rfl
  have hpage : ∀ t ∈ s.tList, t.pi ≠ pgnum (s.ptes (.user e v)) := by
    intro t ht heq
    cases hf : t.fptr with
    | pageOut => exact hsafe t ht hf heq
    | pageIn =>
        rw [← heq] at href
        exact href (h.tasks.coming t ht hf).2.2.2.2.1
  have hentry : ∀ t ∈ s.tList, t.entry ≠ .user e v := by
    intro t ht heq
    cases hf : t.fptr with
    | pageOut =>
        refine hpage t ht ?_
        rw [(h.tasks.out t ht hf).2.1, heq]
    | pageIn =>
        have hs := (h.tasks.coming t ht hf).1
        rw [heq, not_swapped_of_present hp] at hs
        exact absurd hs (by simp)
  refine ⟨h.tasks.change hptes hpages (htl ▸ List.Sublist.refl _) (htl ▸ h.tasks.fresh)
    (htl ▸ hentry) (htl ▸ hpage)
    (by simp), ?_⟩
  refine h.bits.congr (fun k => ?_) (fun k hk => ?_) (by rw [Swap.atWork, htl]; rfl) hmap
  · by_cases hke : k = .user e v
    · rw [hke, hself, isSwapped_zero, not_swapped_of_present hp]
    · rw [hptes _ hke]
  · by_cases hke : k = .user e v
    · rw [hke, not_swapped_of_present hp] at hk
      exact absurd hk (by simp)
    · rw [hptes _ hke]

/-- A tasklet is queued for an entry and a page that no other one works on. -/
theorem TaskInv.enqueue {s : Swap} (h : TaskInv s) {t : SwapTask} (hc : t.count = 0)
    (hentry : ∀ u ∈ s.tList, u.entry ≠ t.entry) (hframe : ∀ u ∈ s.tList, u.pi ≠ t.pi)
    (hout : t.fptr = .pageOut → isPresent (s.ptes t.entry) = true ∧ t.pi = pgnum (s.ptes t.entry) ∧
      (s.pages t.pi).ref = 1 ∧ (s.pages t.pi).alloc = true)
    (hin : t.fptr = .pageIn → isSwapped (s.ptes t.entry) = true ∧ s.ptes t.entry &&& pteAvail ≠ 0 ∧
      t.sectorStart = pgnum (s.ptes t.entry) ∧ t.pi < 2 ^ 20 ∧ (s.pages t.pi).ref = 0 ∧
      (s.pages t.pi).alloc = true)
    (hsmall : ∀ e j, t.entry ≠ .big e j) : TaskInv { s with tList := s.tList ++ [t] } := by
  have hnodup : ∀ {α : Type} (f : SwapTask → α), (s.tList.map f).Nodup →
      (∀ u ∈ s.tList, f u ≠ f t) →
      ((s.tList ++ [t]).map f).Nodup := by
    intro α f hnd hne
    rw [List.map_append, List.map_singleton, List.nodup_append]
    refine ⟨hnd, by simp, ?_⟩
    intro a ha b hb
    obtain ⟨u, hu, rfl⟩ := List.mem_map.1 ha
    rw [List.mem_singleton.1 hb]
    exact hne u hu
  refine
    { entries := hnodup _ h.entries hentry, frames := hnodup _ h.frames hframe, out := ?_,
      coming := ?_,
      small := fun e j => ⟨(h.small e j).1, ?_⟩, fresh := ?_, count := ?_ }
  · intro u hu hf
    rcases List.mem_append.1 hu with hu | hu
    · exact h.out u hu hf
    · rw [List.mem_singleton.1 hu] at hf ⊢
      exact hout hf
  · intro u hu hf
    rcases List.mem_append.1 hu with hu | hu
    · exact h.coming u hu hf
    · rw [List.mem_singleton.1 hu] at hf ⊢
      exact hin hf
  · intro u hu
    rcases List.mem_append.1 hu with hu | hu
    · exact (h.small e j).2 u hu
    · rw [List.mem_singleton.1 hu]
      exact hsmall e j
  · intro u hu
    cases hl : s.tList with
    | nil =>
        simp only [hl] at hu
        exact absurd hu (by simp)
    | cons v rest =>
        simp only [hl] at hu
        rcases List.mem_append.1 hu with hu | hu
        · exact h.fresh u (by rw [hl]; exact hu)
        · rw [List.mem_singleton.1 hu]
          exact hc
  · intro u hu
    rcases List.mem_append.1 hu with hu | hu
    · exact h.count u hu
    · rw [List.mem_singleton.1 hu, hc]
      exact Nat.zero_le _

/-- A page that is in use is to be swapped out. -/
theorem SlotInv.reclaim {s s' : Swap} (h : SlotInv s) {pp : ℕ} {decoy : Option (ℕ × ℕ)}
    (hpp : pp < 2 ^ 20) (hsafe : SlotSafe s (.reclaim pp decoy))
    (hr : s.reclaim pp decoy = Except.ok s') : SlotInv s' := by
  rcases reclaim_cases hr with ⟨-, rfl⟩ | ⟨hroom, k, hfound, rfl⟩
  · exact h
  obtain ⟨href, halloc, hother, hsmall⟩ := hsafe hroom
  have hk : ∀ e j, k ≠ .big e j := by
    rintro e j rfl
    exact hsmall e j hfound
  obtain ⟨hp, hnum⟩ := pgnum_of_mapsPage hpp (mapsPage_findPteAll hfound hk)
  have hframe : ∀ u ∈ s.tList, u.pi ≠ pp := by
    intro u hu heq
    cases hf : u.fptr with
    | pageOut => exact hother u hu hf heq
    | pageIn =>
        have hzero := (h.tasks.coming u hu hf).2.2.2.2.1
        rw [heq, href] at hzero
        exact absurd hzero (by simp)
  have hentry : ∀ u ∈ s.tList, u.entry ≠ k := by
    intro u hu heq
    cases hf : u.fptr with
    | pageOut =>
        refine hframe u hu ?_
        rw [(h.tasks.out u hu hf).2.1, heq, hnum]
    | pageIn =>
        have hs := (h.tasks.coming u hu hf).1
        rw [heq, not_swapped_of_present hp] at hs
        exact absurd hs (by simp)
  refine ⟨h.tasks.enqueue rfl hentry hframe (fun _ => ⟨hp, hnum.symm, href, halloc⟩) (by simp) hk,
    ?_⟩
  exact h.bits.congr (fun _ => rfl) (fun _ _ => rfl) (Swap.atWork_append rfl rfl) rfl

/-- A `page_in` is queued. -/
theorem SlotInv.fault {s : Swap} (h : SlotInv s) {e v pp : ℕ}
    (hen : (SwapOp.fault e v pp).Enabled s) : SlotInv (s.swapIn (.user e v) pp) := by
  obtain ⟨hsw, havail, hpp, halloc, href⟩ := hen
  unfold Swap.swapIn
  split
  · dsimp only
    have hentry : ∀ t ∈ s.tList, t.entry ≠ .user e v := by
      intro t ht heq
      cases hf : t.fptr with
      | pageOut =>
          rw [← heq, not_swapped_of_present (h.tasks.out t ht hf).1] at hsw
          exact absurd hsw (by simp)
      | pageIn =>
          refine (h.tasks.coming t ht hf).2.1 ?_
          rw [heq]
          exact havail
    have hframe : ∀ t ∈ s.tList, t.pi ≠ pp := fun t ht => h.tasks.page_ne halloc ht
    have hswapped := isSwapped_or_avail hsw
    have hmarked := or_avail_ne_zero (s.ptes (.user e v))
    generalize hs₁ : (s.setPte (.user e v) (s.ptes (.user e v) ||| pteAvail)).setPage pp
      { (s.setPte (.user e v) (s.ptes (.user e v) ||| pteAvail)).pages pp with alloc := true } = s₁
    have hself : s₁.ptes (.user e v) = s.ptes (.user e v) ||| pteAvail := by
      rw [← hs₁]
      exact Function.update_self ..
    have hptes : ∀ k ≠ .user e v, s₁.ptes k = s.ptes k := by
      intro k hk
      rw [← hs₁]
      exact Function.update_of_ne hk ..
    have hpage : s₁.pages pp = { s.pages pp with alloc := true } := by
      rw [← hs₁]
      exact Function.update_self ..
    have hpages : ∀ q ≠ pp, s₁.pages q = s.pages q := by
      intro q hq
      rw [← hs₁]
      exact Function.update_of_ne hq ..
    have htl : s₁.tList = s.tList := (congrArg Swap.tList hs₁.symm).trans rfl
    have hmap : s₁.swapMap = s.swapMap := (congrArg Swap.swapMap hs₁.symm).trans rfl
    have htasks : TaskInv s₁ :=
      h.tasks.change hptes hpages (htl ▸ List.Sublist.refl _) (htl ▸ h.tasks.fresh) (htl ▸ hentry)
        (htl ▸ hframe)
        (by simp)
    refine ⟨htasks.enqueue rfl (htl ▸ hentry) (htl ▸ hframe) (by simp) (fun _ => ?_) (by simp), ?_⟩
    · dsimp only
      rw [hself, hpage]
      exact ⟨hswapped, hmarked, (pgnum_or_avail _).symm, hpp, href, rfl⟩
    · refine h.bits.congr (fun k => ?_) (fun k _ => ?_) (Swap.atWork_append (by rw [htl]) rfl) hmap
      · by_cases hk : k = .user e v
        · rw [hk]
          change isSwapped (s₁.ptes _) = _
          rw [hself, hswapped, hsw]
        · change isSwapped (s₁.ptes k) = _
          rw [hptes _ hk]
      · change pgnum (s₁.ptes k) = _
        by_cases hk : k = .user e v
        · rw [hk, hself, pgnum_or_avail]
        · rw [hptes _ hk]
  · exact h

/-- A page of 4 MB comes or goes. -/
theorem SlotInv.big {s : Swap} (h : SlotInv s) (e j : ℕ) {pde : BitVec 32}
    (hpde : pde = 0 ∨ isPresent pde = true) :
    SlotInv (s.setPte (.big e j) pde) := by
  have hpde : isSwapped pde = false := by
    rcases hpde with rfl | hp
    · exact isSwapped_zero
    · exact not_swapped_of_present hp
  have hself : (s.setPte (.big e j) pde).ptes (.big e j) = pde := Function.update_self ..
  have hptes : ∀ k ≠ .big e j, (s.setPte (.big e j) pde).ptes k = s.ptes k :=
    fun k hk => Function.update_of_ne hk ..
  obtain ⟨hold, hentry⟩ := h.tasks.small e j
  constructor
  · refine
      { h.tasks with
        out := fun t ht hf => ?_
        coming := fun t ht hf => ?_
        small := fun e' j' => ⟨?_, (h.tasks.small e' j').2⟩ }
    · rw [hptes _ (hentry t ht)]
      exact h.tasks.out t ht hf
    · rw [hptes _ (hentry t ht)]
      exact h.tasks.coming t ht hf
    · by_cases hk : PteId.big e' j' = .big e j
      · rw [hk, hself, hpde]
      · rw [hptes _ hk]
        exact (h.tasks.small e' j').1
  · refine h.bits.congr (fun k => ?_) (fun k hk => ?_) rfl rfl
    · by_cases hke : k = .big e j
      · rw [hke, hself, hpde, hold]
      · rw [hptes _ hke]
    · by_cases hke : k = .big e j
      · rw [hke, hold] at hk
        exact absurd hk (by simp)
      · rw [hptes _ hke]

/-! ### Rounds -/

/-- The first tasklet makes progress. -/
theorem TaskInv.progress {s s' : Swap} {t t' : SwapTask} {rest : List SwapTask} (h : TaskInv s)
    (hl : s.tList = t :: rest) (hl' : s'.tList = t' :: rest) (hptes : s'.ptes = s.ptes)
    (hpages : s'.pages = s.pages) (hf : t'.fptr = t.fptr) (he : t'.entry = t.entry)
    (hpi : t'.pi = t.pi) (hslot : t.fptr = .pageIn → t'.sectorStart = t.sectorStart)
    (hc : t'.count ≤ nSectors) : TaskInv s' := by
  have hmem : t ∈ s.tList := by rw [hl]; simp
  have hrest : ∀ u ∈ rest, u ∈ s.tList := by
    intro u hu
    rw [hl]
    exact List.mem_cons_of_mem _ hu
  refine
    { entries := ?_, frames := ?_, out := ?_, coming := ?_, small := fun e j =>
      ⟨?_, fun u hu => ?_⟩,
      fresh := ?_, count := ?_ }
  · have hnd := h.entries
    rw [hl] at hnd
    rw [hl', List.map_cons, he]
    exact hnd
  · have hnd := h.frames
    rw [hl] at hnd
    rw [hl', List.map_cons, hpi]
    exact hnd
  · intro u hu hfu
    rw [hl'] at hu
    rw [hptes, hpages]
    rcases List.mem_cons.1 hu with rfl | hu
    · rw [he, hpi]
      exact h.out t hmem (by rw [← hf]; exact hfu)
    · exact h.out u (hrest u hu) hfu
  · intro u hu hfu
    rw [hl'] at hu
    rw [hptes, hpages]
    rcases List.mem_cons.1 hu with rfl | hu
    · rw [hf] at hfu
      rw [he, hpi, hslot hfu]
      exact h.coming t hmem hfu
    · exact h.coming u (hrest u hu) hfu
  · rw [hptes]
    exact (h.small e j).1
  · rw [hl'] at hu
    rcases List.mem_cons.1 hu with rfl | hu
    · rw [he]
      exact (h.small e j).2 t hmem
    · exact (h.small e j).2 u (hrest u hu)
  · have hfresh := h.fresh
    rw [hl] at hfresh
    rw [hl']
    exact hfresh
  · intro u hu
    rw [hl'] at hu
    rcases List.mem_cons.1 hu with rfl | hu
    · exact hc
    · exact h.count u (hrest u hu)

/-- The first tasklet leaves the list, and its entry and its page change. -/
theorem TaskInv.finish {s s' : Swap} {t : SwapTask} {rest : List SwapTask} (h : TaskInv s)
    (hl : s.tList = t :: rest) (hl' : s'.tList = rest) (hptes : ∀ k ≠ t.entry, s'.ptes k = s.ptes k)
    (hpages : ∀ q ≠ t.pi, s'.pages q = s.pages q) : TaskInv s' := by
  have hmem : t ∈ s.tList := by rw [hl]; simp
  have hother : ∀ {α : Type} (f : SwapTask → α), (s.tList.map f).Nodup → ∀ u ∈ rest, f u ≠ f t := by
    intro α f hnd u hu heq
    rw [hl, List.map_cons, List.nodup_cons] at hnd
    exact hnd.1 (List.mem_map.2 ⟨u, hu, heq⟩)
  refine h.change hptes hpages ?_ ?_ ?_ ?_ ?_
  · rw [hl', hl]
    exact List.sublist_cons_self t rest
  · have hfresh := h.fresh
    rw [hl] at hfresh
    rw [hl']
    exact fun u hu => hfresh u (List.mem_of_mem_tail hu)
  · rw [hl']
    exact hother _ h.entries
  · rw [hl']
    exact hother _ h.frames
  · exact fun e j hk => absurd hk ((h.small e j).2 t hmem)

/-- The first tasklet has not got any further. -/
theorem SlotInv.wait {s s' : Swap} {t t' : SwapTask} {rest : List SwapTask} (h : SlotInv s)
    (hl : s.tList = t :: rest) (hl' : s'.tList = t' :: rest) (hptes : s'.ptes = s.ptes)
    (hpages : s'.pages = s.pages) (hmap : s'.swapMap = s.swapMap) (hf : t'.fptr = t.fptr)
    (he : t'.entry = t.entry) (hpi : t'.pi = t.pi) (hc : t'.count = t.count)
    (hsame : 0 < t.count → t' = t) (hin : t.fptr = .pageIn → t'.sectorStart = t.sectorStart) :
    SlotInv s' := by
  have hmem : t ∈ s.tList := by rw [hl]; simp
  refine ⟨h.tasks.progress hl hl' hptes hpages hf he hpi
    hin (by rw [hc]; exact h.tasks.count t hmem), ?_⟩
  refine h.bits.congr (fun k => by rw [hptes]) (fun k _ => by rw [hptes]) ?_ hmap
  by_cases hpos : 0 < t.count
  · rw [Swap.atWork_cons hl hpos, Swap.atWork_cons hl' (by omega), hsame hpos]
  · have hz : t.count = 0 := by omega
    rw [Swap.atWork_none (s := s), Swap.atWork_none (s := s')]
    · intro u hu
      rw [hl', List.head?_cons, Option.mem_some_iff] at hu
      rw [← hu, hc, hz]
    · intro u hu
      rw [hl, List.head?_cons, Option.mem_some_iff] at hu
      rw [← hu, hz]

/-- `page_out` writes a sector of a slot that is its own. -/
theorem SlotInv.writeSector {s s' : Swap} {t : SwapTask} {rest : List SwapTask} {spot : ℕ}
    (h : SlotInv s) (hl : s.tList = t :: rest) (hf : t.fptr = .pageOut)
    (hcount : t.count < nSectors) (hspot : Slot spot)
    (hown : ∀ k, isSwapped (s.ptes k) = true → pgnum (s.ptes k) ≠ spot)
    (hstart : 0 < t.count → spot = t.sectorStart)
    (hl' : s'.tList = { t with sectorStart := spot, count := t.count + 1 } :: rest)
    (hptes : s'.ptes = s.ptes) (hpages : s'.pages = s.pages)
    (hmap : s'.swapMap = toggleBit s.swapMap (spot + t.count)) : SlotInv s' := by
  refine ⟨h.tasks.progress hl hl' hptes hpages rfl rfl rfl (by simp [hf]) hcount, ?_⟩
  have hwork' := Swap.atWork_cons hl' (Nat.succ_pos t.count)
  -- before the round the tasklet had the first `t.count` sectors of the slot
  have hocc : ∀ i, Occupied s i ↔ (∃ k, isSwapped (s.ptes k) = true ∧ pgnum (s.ptes k) ≤ i ∧
      i < pgnum (s.ptes k) + nSectors) ∨ (spot ≤ i ∧ i < spot + t.count) := by
    intro i
    by_cases hpos : 0 < t.count
    · have hwork := Swap.atWork_cons hl hpos
      simp [Occupied, doneIn, hwork, hf, hstart hpos]
    · have hwork : s.atWork = none := by
        refine Swap.atWork_none fun u hu => ?_
        rw [hl, List.head?_cons, Option.mem_some_iff] at hu
        rw [← hu]
        omega
      have hempty : ¬ (spot ≤ i ∧ i < spot + t.count) := by omega
      simp [Occupied, doneIn, hwork, hempty]
  have hocc' : ∀ i, Occupied s' i ↔ (∃ k, isSwapped (s.ptes k) = true ∧ pgnum (s.ptes k) ≤ i ∧
      i < pgnum (s.ptes k) + nSectors) ∨ (spot ≤ i ∧ i < spot + (t.count + 1)) := by
    intro i
    simp [Occupied, doneIn, hwork', hf, hptes]
  refine ⟨?_, ?_, ?_, fun i => ?_⟩
  · rw [hptes]
    exact h.bits.slots
  · rw [hptes]
    exact h.bits.inj
  · intro u hu _
    rw [hwork', Option.mem_some_iff] at hu
    rw [← hu, hptes]
    exact ⟨hspot, hown⟩
  · rw [hmap, hocc', getBit_toggleBit]
    by_cases hi : i = spot + t.count
    · -- the bit was clear: the sector belongs to no other slot
      have hclear : getBit s.swapMap i = false := by
        rw [← Bool.not_eq_true, h.bits.bits, hocc]
        rintro (⟨k, hk, hlo, hhi⟩ | ⟨-, hhi⟩)
        · exact hown k hk ((h.bits.slots k hk).eq_of_mem hspot hlo hhi (by omega) (by omega))
        · omega
      rw [hclear]
      simp only [hi, decide_true, Bool.false_xor, true_iff]
      exact Or.inr ⟨by omega, by omega⟩
    · simp only [hi, decide_false, Bool.xor_false]
      rw [h.bits.bits, hocc]
      refine or_congr Iff.rfl ?_
      omega

/-- `page_in` reads a sector. -/
theorem SlotInv.readSector {s s' : Swap} {t : SwapTask} {rest : List SwapTask} (h : SlotInv s)
    (hl : s.tList = t :: rest) (hf : t.fptr = .pageIn) (hcount : t.count < nSectors)
    (hl' : s'.tList = { t with count := t.count + 1 } :: rest)
    (hptes : s'.ptes = s.ptes) (hpages : s'.pages = s.pages)
    (hmap : s'.swapMap = toggleBit s.swapMap (t.sectorStart + t.count)) : SlotInv s' := by
  refine ⟨h.tasks.progress hl hl' hptes hpages rfl rfl rfl (fun _ => rfl) hcount, ?_⟩
  obtain ⟨hsw, -, hslot, -⟩ := h.tasks.coming t (by rw [hl]; simp) hf
  have hwork' := Swap.atWork_cons hl' (Nat.succ_pos t.count)
  have hdone : ∀ k, doneIn s k = if k = t.entry then t.count else 0 := by
    intro k
    by_cases hpos : 0 < t.count
    · rw [doneIn, Swap.atWork_cons hl hpos]
      simp [hf, eq_comm]
    · have hwork : s.atWork = none := by
        refine Swap.atWork_none fun u hu => ?_
        rw [hl, List.head?_cons, Option.mem_some_iff] at hu
        rw [← hu]
        omega
      rw [doneIn, hwork]
      have hz : t.count = 0 := by omega
      simp [hz]
  have hdone' : ∀ k, doneIn s' k = if k = t.entry then t.count + 1 else 0 := by
    intro k
    rw [doneIn, hwork']
    simp [hf, eq_comm]
  have hnone : ∀ u ∈ s.atWork, u.fptr ≠ .pageOut := by
    intro u hu hfu
    have hu' := Option.mem_filter_iff.1 hu
    rw [hl, List.head?_cons, Option.mem_some_iff] at hu'
    rw [← hu'.1, hf] at hfu
    exact absurd hfu (by simp)
  refine ⟨?_, ?_, ?_, fun i => ?_⟩
  · rw [hptes]
    exact h.bits.slots
  · rw [hptes]
    exact h.bits.inj
  · intro u hu hfu
    rw [hwork', Option.mem_some_iff] at hu
    rw [← hu] at hfu
    rw [hf] at hfu
    exact absurd hfu (by simp)
  · have hocc : Occupied s i ↔ ∃ k, isSwapped (s.ptes k) = true ∧
        pgnum (s.ptes k) + (if k = t.entry then t.count else 0) ≤ i ∧
        i < pgnum (s.ptes k) + nSectors := by
      rw [Occupied, or_iff_left (fun ⟨u, hu, hfu, _⟩ => hnone u hu hfu)]
      simp only [hdone]
    have hocc' : Occupied s' i ↔ ∃ k, isSwapped (s.ptes k) = true ∧
        pgnum (s.ptes k) + (if k = t.entry then t.count + 1 else 0) ≤ i ∧
        i < pgnum (s.ptes k) + nSectors := by
      simp [Occupied, hdone', hwork', hf, hptes]
    rw [hmap, getBit_toggleBit, hocc']
    by_cases hi : i = t.sectorStart + t.count
    · -- the bit was set, and no other slot has the sector
      have hset : getBit s.swapMap i = true := by
        rw [h.bits.bits, hocc]
        exact ⟨t.entry, hsw, by rw [if_pos rfl, ← hslot]; omega, by rw [← hslot]; omega⟩
      rw [hset]
      simp only [hi, decide_true, Bool.xor_true, Bool.not_true, Bool.false_eq_true, false_iff]
      rintro ⟨k, hk, hlo, hhi⟩
      by_cases hke : k = t.entry
      · rw [if_pos hke, hke, ← hslot] at hlo
        omega
      · rw [if_neg hke] at hlo
        have heq := (h.bits.slots k hk).eq_of_mem (h.bits.slots t.entry hsw) (by omega) hhi
          (by rw [← hslot]; omega) (by rw [← hslot]; omega)
        exact hke (h.bits.inj k t.entry hk hsw heq)
    · simp only [hi, decide_false, Bool.xor_false]
      rw [h.bits.bits, hocc]
      refine exists_congr fun k => and_congr_right fun _ => and_congr_left fun _ => ?_
      by_cases hke : k = t.entry
      · rw [if_pos hke, if_pos hke, hke, ← hslot]
        omega
      · rw [if_neg hke, if_neg hke]

/-- `page_out` ends: the slot is recorded in the entry. -/
theorem SlotInv.outFinish {s s' : Swap} {t : SwapTask} {rest : List SwapTask} (h : SlotInv s)
    (hl : s.tList = t :: rest) (hf : t.fptr = .pageOut) (hcount : nSectors ≤ t.count)
    (hr : pageOutFinish s t = Except.ok s') : SlotInv { s' with tList := rest } := by
  have hmem : t ∈ s.tList := by rw [hl]; simp
  have hall : t.count = nSectors := Nat.le_antisymm (h.tasks.count t hmem) hcount
  have hpos : 0 < t.count := by rw [hall]; decide
  obtain ⟨hp, hpi, hone, -⟩ := h.tasks.out t hmem hf
  have hwork := Swap.atWork_cons hl hpos
  obtain ⟨hslot, hfree⟩ := h.bits.current t (by rw [hwork]; rfl) hf
  have hlt : t.sectorStart < 2 ^ 20 := by
    have hsize : sizeSwapMap < 2 ^ 20 := by decide
    have hend := hslot.2
    omega
  rcases pageOutFinish_cases hr with ⟨hz, -⟩ | ⟨-, -, rfl⟩
  · rw [hone] at hz
    exact absurd hz (by simp)
  generalize hs₁ : ({ (s.setPte t.entry (swappedPte (s.ptes t.entry) t.sectorStart)).setPage t.pi
    { s.pages t.pi with ref := 0, alloc := false } with tList := rest } : Swap) = s₁
  have hself : s₁.ptes t.entry = swappedPte (s.ptes t.entry) t.sectorStart := by
    rw [← hs₁]
    exact Function.update_self ..
  have hptes : ∀ k ≠ t.entry, s₁.ptes k = s.ptes k := by
    intro k hk
    rw [← hs₁]
    exact Function.update_of_ne hk ..
  have hpages : ∀ q ≠ t.pi, s₁.pages q = s.pages q := by
    intro q hq
    rw [← hs₁]
    exact Function.update_of_ne hq ..
  have htl : s₁.tList = rest := by rw [← hs₁]
  have hmap : s₁.swapMap = s.swapMap := (congrArg Swap.swapMap hs₁.symm).trans rfl
  have hrest : ∀ u ∈ rest, u ∈ s.tList := by
    intro u hu
    rw [hl]
    exact List.mem_cons_of_mem _ hu
  have hfresh : ∀ u ∈ rest, u.count = 0 := by
    have hfr := h.tasks.fresh
    rw [hl] at hfr
    exact hfr
  have hsw := isSwapped_swappedPte hp t.sectorStart
  have hnum := pgnum_swappedPte (s.ptes t.entry) hlt
  have hidle : s₁.atWork = none := by
    refine Swap.atWork_none fun u hu => hfresh u ?_
    rw [htl] at hu
    exact List.mem_of_mem_head? hu
  constructor
  · exact h.tasks.finish hl htl hptes hpages
  · -- the recorded slots are the old ones and the one of the tasklet
    have hswapped : ∀ k, isSwapped (s₁.ptes k) = true → k ≠ t.entry →
        isSwapped (s.ptes k) = true ∧ pgnum (s₁.ptes k) = pgnum (s.ptes k) := by
      intro k hk hne
      rw [hptes k hne] at hk ⊢
      exact ⟨hk, rfl⟩
    refine ⟨fun k hk => ?_, fun k k' hk hk' heq => ?_, fun u hu => ?_, fun i => ?_⟩
    · by_cases hke : k = t.entry
      · rw [hke, hself, hnum]
        exact hslot
      · obtain ⟨hk, hkn⟩ := hswapped k hk hke
        rw [hkn]
        exact h.bits.slots k hk
    · by_cases hke : k = t.entry <;> by_cases hke' : k' = t.entry
      · rw [hke, hke']
      · obtain ⟨hk', hkn'⟩ := hswapped k' hk' hke'
        rw [hke, hself, hnum, hkn'] at heq
        exact absurd heq.symm (hfree k' hk')
      · obtain ⟨hk, hkn⟩ := hswapped k hk hke
        rw [hke', hself, hnum, hkn] at heq
        exact absurd heq (hfree k hk)
      · obtain ⟨hk, hkn⟩ := hswapped k hk hke
        obtain ⟨hk', hkn'⟩ := hswapped k' hk' hke'
        rw [hkn, hkn'] at heq
        exact h.bits.inj k k' hk hk' heq
    · rw [hidle] at hu
      exact absurd hu (by simp)
    · have hocc : Occupied s i ↔ (∃ k, isSwapped (s.ptes k) = true ∧ pgnum (s.ptes k) ≤ i ∧
          i < pgnum (s.ptes k) + nSectors) ∨ (t.sectorStart ≤ i ∧
          i < t.sectorStart + nSectors) := by
        simp [Occupied, doneIn, hwork, hf, hall]
      have hocc₁ : Occupied s₁ i ↔ ∃ k, isSwapped (s₁.ptes k) = true ∧ pgnum (s₁.ptes k) ≤ i ∧
          i < pgnum (s₁.ptes k) + nSectors := by
        simp [Occupied, doneIn, hidle]
      rw [hmap, h.bits.bits, hocc, hocc₁]
      constructor
      · rintro (⟨k, hk, hrange⟩ | hrange)
        · have hne : k ≠ t.entry := by
            rintro rfl
            rw [not_swapped_of_present hp] at hk
            exact absurd hk (by simp)
          refine ⟨k, ?_⟩
          rw [hptes k hne]
          exact ⟨hk, hrange⟩
        · refine ⟨t.entry, ?_⟩
          rw [hself, hnum]
          exact ⟨hsw, hrange⟩
      · rintro ⟨k, hk, hrange⟩
        by_cases hke : k = t.entry
        · rw [hke, hself, hnum] at hrange
          exact Or.inr hrange
        · obtain ⟨hk, hkn⟩ := hswapped k hk hke
          rw [hkn] at hrange
          exact Or.inl ⟨k, hk, hrange⟩

/-- `page_in` ends: the entry is present again, and its slot was given back sector by sector. -/
theorem SlotInv.inFinish {s : Swap} {t : SwapTask} {rest : List SwapTask} (h : SlotInv s)
    (hl : s.tList = t :: rest) (hf : t.fptr = .pageIn) (hcount : nSectors ≤ t.count) :
    SlotInv { pageInFinish s t with tList := rest } := by
  have hmem : t ∈ s.tList := by rw [hl]; simp
  have hall : t.count = nSectors := Nat.le_antisymm (h.tasks.count t hmem) hcount
  have hpos : 0 < t.count := by rw [hall]; decide
  have hwork := Swap.atWork_cons hl hpos
  generalize hs₁ : ({ pageInFinish s t with tList := rest } : Swap) = s₁
  have hself : s₁.ptes t.entry = broughtPte (s.ptes t.entry) t.pi := by
    rw [← hs₁]
    exact Function.update_self ..
  have hptes : ∀ k ≠ t.entry, s₁.ptes k = s.ptes k := by
    intro k hk
    rw [← hs₁]
    exact Function.update_of_ne hk ..
  have hpages : ∀ q ≠ t.pi, s₁.pages q = s.pages q := by
    intro q hq
    rw [← hs₁]
    exact Function.update_of_ne hq ..
  have htl : s₁.tList = rest := by rw [← hs₁]
  have hmap : s₁.swapMap = s.swapMap := (congrArg Swap.swapMap hs₁.symm).trans rfl
  have hfresh : ∀ u ∈ rest, u.count = 0 := by
    have hfr := h.tasks.fresh
    rw [hl] at hfr
    exact hfr
  have hpres : isPresent (s₁.ptes t.entry) = true := by
    rw [hself]
    exact isPresent_broughtPte _ _
  have hidle : s₁.atWork = none := by
    refine Swap.atWork_none fun u hu => hfresh u ?_
    rw [htl] at hu
    exact List.mem_of_mem_head? hu
  have hswapped : ∀ k, isSwapped (s₁.ptes k) = true → k ≠ t.entry := by
    rintro k hk rfl
    rw [not_swapped_of_present hpres] at hk
    exact absurd hk (by simp)
  constructor
  · exact h.tasks.finish hl htl hptes hpages
  · refine ⟨fun k hk => ?_, fun k k' hk hk' heq => ?_, fun u hu => ?_, fun i => ?_⟩
    · have hne := hswapped k hk
      rw [hptes k hne] at hk ⊢
      exact h.bits.slots k hk
    · have hne := hswapped k hk
      have hne' := hswapped k' hk'
      rw [hptes k hne] at hk heq
      rw [hptes k' hne'] at hk' heq
      exact h.bits.inj k k' hk hk' heq
    · rw [hidle] at hu
      exact absurd hu (by simp)
    · have hdone : ∀ k, doneIn s k = if k = t.entry then nSectors else 0 := by
        intro k
        rw [doneIn, hwork]
        simp [hf, hall, eq_comm]
      have hocc₁ : Occupied s₁ i ↔ ∃ k, isSwapped (s₁.ptes k) = true ∧ pgnum (s₁.ptes k) ≤ i ∧
          i < pgnum (s₁.ptes k) + nSectors := by
        simp [Occupied, doneIn, hidle]
      rw [hmap, h.bits.bits, hocc₁]
      constructor
      · rintro (⟨k, hk, hlo, hhi⟩ | ⟨u, hu, hfu, -⟩)
        · have hne : k ≠ t.entry := by
            rintro rfl
            rw [hdone, if_pos rfl] at hlo
            omega
          rw [hdone, if_neg hne] at hlo
          refine ⟨k, ?_⟩
          rw [hptes k hne]
          exact ⟨hk, hlo, hhi⟩
        · rw [hwork, Option.mem_some_iff] at hu
          rw [← hu, hf] at hfu
          exact absurd hfu (by simp)
      · rintro ⟨k, hk, hlo, hhi⟩
        have hne := hswapped k hk
        rw [hptes k hne] at hk hlo hhi
        exact Or.inl ⟨k, hk, by rw [hdone, if_neg hne]; exact hlo, hhi⟩

/-! ### Whole runs -/

/-- A round starts well when a sector is free that is not among the last eight. -/
theorem SlotInv.startsWell {s : Swap} {op : SwapOp} (h : SlotInv s) (hsafe : SlotSafe s op) :
    StartsWell s op := by
  rintro ready t rfl ht hf hc
  obtain ⟨hslot, -, hfree⟩ := h.bits.goodSpot (Option.mem_def.1 ht) hc (hsafe t ht hf hc)
  exact ⟨hslot.inArea, fun k hk => (h.bits.slots k hk).apart hslot (hfree k hk)⟩

/-- A round of `ktask`. -/
theorem SlotInv.round {s s' : Swap} {ready : Bool} (h : SlotInv s)
    (hsafe : SlotSafe s (.round ready)) (hr : swapRound s ready = Except.ok s') : SlotInv s' := by
  rcases swapRound_cases hr with ⟨-, rfl⟩ | ⟨t, rest, hl, hround⟩
  · exact h
  have hhead : s.tList.head? = some t := by rw [hl]; rfl
  have hspot : 0 < t.count → outSpot s t = t.sectorStart := by
    intro hpos
    rw [outSpot, if_neg (by omega)]
  rcases hround with ⟨hf, hcount, rfl | rfl⟩ | ⟨hf, hcount, s₁, hfin, rfl⟩ |
    ⟨hf, hcount, rfl | rfl⟩ | ⟨hf, hcount, rfl⟩
  · obtain ⟨hptes, hpages, -, -, hmap⟩ := s.startAt_frame t (outSpot s t)
    refine h.wait hl rfl hptes hpages hmap rfl rfl rfl rfl (fun hpos => ?_) (by simp [hf])
    rw [hspot hpos]
  · obtain ⟨hptes, hpages, -, -, hmap⟩ := s.startAt_frame t (outSpot s t)
    have hgood : Slot (outSpot s t) ∧
        ∀ k, isSwapped (s.ptes k) = true → pgnum (s.ptes k) ≠ outSpot s t := by
      by_cases hpos : 0 < t.count
      · rw [hspot hpos]
        exact h.bits.current t (by rw [Swap.atWork_cons hl hpos]; rfl) hf
      · have hz : t.count = 0 := by omega
        obtain ⟨hslot, -, hfree⟩ := h.bits.goodSpot hhead hz (hsafe t hhead hf hz)
        rw [outSpot, if_pos hz]
        exact ⟨hslot, hfree⟩
    refine h.writeSector hl hf hcount hgood.1 hgood.2 hspot rfl hptes hpages ?_
    change toggleBit (s.startAt t (outSpot s t)).swapMap (outSpot s t + t.count) = _
    rw [hmap]
  · exact h.outFinish hl hf hcount hfin
  · obtain ⟨hptes, hpages, -, -, hmap⟩ := s.startAt_frame t t.sectorStart
    exact h.wait hl rfl hptes hpages hmap rfl rfl rfl rfl (fun _ => rfl) fun _ => rfl
  · obtain ⟨hptes, hpages, -, -, hmap⟩ := s.startAt_frame t t.sectorStart
    refine h.readSector hl hf hcount rfl hptes hpages ?_
    change toggleBit (s.startAt t t.sectorStart).swapMap (t.sectorStart + t.count) = _
    rw [hmap]
  · exact h.inFinish hl hf hcount

/-- **One safe step** keeps the slots in order. -/
theorem SlotInv.step {s s' : Swap} {op : SwapOp} (h : SlotInv s) (hsafe : SlotSafe s op)
    (hstep : swapStep s op s') : SlotInv s' := by
  obtain ⟨hen, hexec⟩ := hstep
  cases op with
  | map e v pp perm =>
      obtain rfl := Except.ok.inj hexec
      exact h.map hen
  | store e v off b =>
      obtain rfl := Except.ok.inj hexec
      exact ⟨{ h.tasks with }, h.bits.congr (fun _ => rfl) (fun _ _ => rfl) rfl rfl⟩
  | reclaim pp decoy => exact h.reclaim hen.1 hsafe hexec
  | fault e v pp =>
      obtain rfl := Except.ok.inj hexec
      exact h.fault hen
  | round ready => exact h.round hsafe hexec
  | free e v => exact h.free hen hsafe hexec
  | big e j pde =>
      obtain rfl := Except.ok.inj hexec
      exact h.big e j hen.2
  | live e b =>
      obtain rfl := Except.ok.inj hexec
      exact ⟨{ h.tasks with }, h.bits.congr (fun _ => rfl) (fun _ _ => rfl) rfl rfl⟩

/-- At boot no entry records a slot. -/
theorem isSwapped_boot (k : PteId) : isSwapped (PteId.boot k) = false := by
  cases k with
  | user e v => exact isSwapped_zero
  | big e j => exact isSwapped_zero
  | kern q =>
      change isSwapped (if q < kernPages then page2pa q ||| pteW ||| pteP else 0) = false
      split
      · refine not_swapped_of_present (isPresent_iff.2 ?_)
        simp [pteP]
      · exact isSwapped_zero

theorem slotInv_boot (pages : ℕ → PageState) (mem disk : ℕ → ℕ → BitVec 8) :
    SlotInv (Swap.boot pages mem disk) := by
  have hnone : ∀ k, ¬ isSwapped ((Swap.boot pages mem disk).ptes k) = true := fun k =>
    Bool.not_eq_true _ ▸ isSwapped_boot k
  constructor
  · exact
      { entries := List.nodup_nil, frames := List.nodup_nil, out := by simp [Swap.boot],
        coming := by simp [Swap.boot], small := fun e j => ⟨isSwapped_boot _, by simp [Swap.boot]⟩,
        fresh := by simp [Swap.boot], count := by simp [Swap.boot] }
  · refine ⟨fun k hk => absurd hk (hnone k), fun k _ hk => absurd hk (hnone k),
      by simp [Swap.atWork, Swap.boot], fun i => ?_⟩
    have hwork : (Swap.boot pages mem disk).atWork = none := rfl
    have hmap : (Swap.boot pages mem disk).swapMap = Bitmap.empty := rfl
    simp [Occupied, hwork, hmap, getBit_empty, hnone]

/-- The swap area at boot, with every page free. -/
def Swap.empty : Swap := Swap.boot (fun _ => ⟨0, false⟩) (fun _ _ => 0) fun _ _ => 0

/-- The environment 2 maps three pages and gives one back; the other two are swapped out, and the
first one in again. -/
def twoPages : List SwapOp :=
  [.live 2 true, .map 2 1 10 6, .map 2 2 11 6, .map 2 3 13 6, .reclaim 10 none, .reclaim 11 none] ++
    List.replicate 2 (.round true) ++ .free 2 3 :: List.replicate 16 (.round true) ++
    .fault 2 1 12 :: List.replicate 3 (.round true)

/-- A page is freed while it is swapped out; the next page takes its slot, and the one after that
starts in the middle of it. -/
def freedMeanwhile : List SwapOp :=
  [.live 2 true, .map 2 1 10 6, .map 2 2 11 6, .map 2 3 12 6, .reclaim 10 none] ++
    List.replicate 8 (.round true) ++ [.free 2 1, .round true, .reclaim 11 none] ++
    List.replicate 9 (.round true) ++ [.reclaim 12 none, .round true]

/-- The free sector that a round needs, when the map has one at the beginning. -/
def roomAtStart (s : Swap) : Bool := (List.range' 1 64).any fun i => !getBit s.swapMap i

/-- A step that is safe for a reason that can be computed. -/
def plainlySafe (s : Swap) : SwapOp → Bool
  | .free e v => s.tList.all fun t => t.pi != pgnum (s.ptes (.user e v))
  | .reclaim pp decoy =>
      (s.pages pp).ref == 1 && (s.pages pp).alloc && (s.tList.all fun t => t.pi != pp) &&
      decoy.isNone
  | .round _ => roomAtStart s
  | _ => true

theorem slotSafe_of_plainlySafe {s : Swap} {op : SwapOp} (h : plainlySafe s op = true) :
    SlotSafe s op := by
  cases op with
  | free e v =>
      intro t ht _
      simpa using List.all_eq_true.1 h t ht
  | round ready =>
      intro t _ _ _
      obtain ⟨i, hi, hbit⟩ := List.any_eq_true.1 h
      have hrange := List.mem_range'_1.1 hi
      have hsize : 65 + nSectors ≤ sizeSwapMap := by decide
      exact ⟨i, hrange.1, by omega, by simpa using hbit⟩
  | map e v pp perm => exact True.intro
  | store e v off b => exact True.intro
  | reclaim pp decoy =>
      simp only [plainlySafe, Bool.and_eq_true, beq_iff_eq, List.all_eq_true, bne_iff_ne,
        Option.isNone_iff_eq_none] at h
      obtain ⟨⟨⟨href, halloc⟩, hother⟩, rfl⟩ := h
      exact fun _ => ⟨href, halloc, fun t ht _ => hother t ht, findPteAll_none_ne_big s pp⟩
  | fault e v pp => exact True.intro
  | big e j pde => exact True.intro
  | live e b => exact True.intro

end Jos
