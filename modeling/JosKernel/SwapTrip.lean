/-
**A page on its way to the disk and back.**

`page_out` writes a page sector by sector, one in a round, while its owner can still store into it.
`Jos.Trip` says what memory and disk hold of the page in each phase of the trip. It is kept by every
store that changes no byte of a sector already written, as long as the `page_out` works on the entry
of the owner, and then nothing the owner stored is lost.

Main definitions:

* `Jos.OnlyPage`, `Jos.TripSafe` — the steps, and the condition on a step;
* `Jos.lastStored` — the last value stored at each offset;
* `Jos.Trip` — the phases of the trip.

Main results:

* `Jos.Trip.step` — one step;
* `Jos.no_lost_update` — whole runs.
-/

import JosKernel.Swap

set_option relaxedAutoImplicit false
set_option autoImplicit false

namespace Jos

open LabelledRun

/-! ### The owner of one page -/

/-- The steps that concern the page `v` of the environment `e` alone: stores of its owner, its way
to the disk and back. Meanwhile environments come and go, and pages of 4 MB. -/
def OnlyPage (e v : ℕ) (s : Swap) : SwapOp → Prop
  | .store e' v' _ _ => e' = e ∧ v' = v
  | .reclaim pp _ => mapsPage (s.ptes (.user e v)) pp = true
  | .fault e' v' _ => e' = e ∧ v' = v
  | .round _ => True
  | .map _ _ _ _ => False
  | .free _ _ => False
  | .big _ _ _ => True
  | .live _ _ => True

/-- **A step that loses no update**: a store changes no byte of a sector that a `page_out` has
already written, and when the page is to be swapped out, it is not on its way already and
`find_pte_all` comes to the entry of its owner first. -/
def TripSafe (e v : ℕ) (s : Swap) : SwapOp → Prop
  | .store _ _ off b => ∀ t ∈ s.tList.head?, t.fptr = .pageOut → t.entry = .user e v →
      off < t.count * sectSize → b = s.mem (pgnum (s.ptes (.user e v))) off
  | .reclaim pp decoy => OwnerFirst s e v pp decoy ∧ ∀ t ∈ s.tList, t.pi ≠ pp
  | _ => True

/-- The bytes of the page after one more step. -/
def lastAfter (e v : ℕ) (last : ℕ → BitVec 8) : SwapOp → ℕ → BitVec 8
  | .store e' v' off b => if e' = e ∧ v' = v then Function.update last off b else last
  | _ => last

/-- **The last value stored** at each offset, from the bytes the page had at first. -/
def lastStored (e v : ℕ) (first : ℕ → BitVec 8) (tr : List (Swap × SwapOp)) : ℕ → BitVec 8 :=
  tr.foldl (fun last p => lastAfter e v last p.2) first

theorem lastStored_snoc (e v : ℕ) (first : ℕ → BitVec 8) (tr : List (Swap × SwapOp)) (s : Swap)
    (op : SwapOp) :
    lastStored e v first (tr ++ [(s, op)]) = lastAfter e v (lastStored e v first tr) op := by
  simp [lastStored]

theorem lastStored_eq_foldl (e v : ℕ) (first : ℕ → BitVec 8) (tr : List (Swap × SwapOp)) :
    lastStored e v first tr = (tr.map Prod.snd).foldl (lastAfter e v) first := by
  rw [lastStored, List.foldl_map]

/-! ### The phases -/

/-- The sectors from `slot` on hold the first `n` sectors of the page. -/
def OnDisk (s : Swap) (slot n : ℕ) (last : ℕ → BitVec 8) : Prop :=
  ∀ j < n, ∀ i < sectSize, s.disk (slot + j) i = last (j * sectSize + i)

/-- The first `n` bytes of the page `pp` are right. -/
def InMemory (s : Swap) (pp n : ℕ) (last : ℕ → BitVec 8) : Prop :=
  ∀ o < n, s.mem pp o = last o

/-- A tasklet is at work on the entry `k` alone, and the controller is where it left off. -/
structure Working (s : Swap) (t : SwapTask) (fptr : TaskletFn) (k : PteId) : Prop where
  only : s.tList = [t]
  fptr : t.fptr = fptr
  entry : t.entry = k
  count : t.count ≤ nSectors
  next : 0 < t.count → s.ideNext = t.sectorStart + t.count

/-- **The phases of a trip to the disk and back.** -/
inductive Trip (k : PteId) (last : ℕ → BitVec 8) (s : Swap) : Prop
  | idle (hq : s.tList = []) (hp : isPresent (s.ptes k) = true)
      (hmem : InMemory s (pgnum (s.ptes k)) pgSize last)
  | leaving (t : SwapTask) (hw : Working s t .pageOut k) (hp : isPresent (s.ptes k) = true)
      (hmem : InMemory s (pgnum (s.ptes k)) pgSize last) (hpi : t.pi = pgnum (s.ptes k))
      (hslot : t.sectorStart < 2 ^ 20) (hdisk : OnDisk s t.sectorStart t.count last)
  | away (hq : s.tList = []) (hp : isSwapped (s.ptes k) = true)
      (hdisk : OnDisk s (pgnum (s.ptes k)) nSectors last)
  | coming (t : SwapTask) (hw : Working s t .pageIn k) (hp : isSwapped (s.ptes k) = true)
      (havail : s.ptes k &&& pteAvail ≠ 0) (hslot : t.sectorStart = pgnum (s.ptes k))
      (hpi : t.pi < 2 ^ 20) (hdisk : OnDisk s t.sectorStart nSectors last)
      (hmem : InMemory s t.pi (t.count * sectSize) last)

/-- A present page holds what was stored. -/
theorem Trip.inMemory {k : PteId} {last : ℕ → BitVec 8} {s : Swap} (h : Trip k last s)
    (hp : isPresent (s.ptes k) = true) : InMemory s (pgnum (s.ptes k)) pgSize last := by
  have habsent : ∀ pte : BitVec 32, isSwapped pte = true → isPresent pte ≠ true := by
    intro pte hs hpres
    rw [isSwapped, hpres] at hs
    exact absurd hs (by simp)
  cases h with
  | idle _ _ hmem => exact hmem
  | leaving _ _ _ hmem => exact hmem
  | away _ hs _ => exact absurd hp (habsent _ hs)
  | coming _ _ hs => exact absurd hp (habsent _ hs)

/-! ### One step -/

theorem pgSize_eq_sectors : pgSize = nSectors * sectSize := by decide

/-- What the tasklets do is not touched. -/
theorem Trip.congr {k : PteId} {last : ℕ → BitVec 8} {s s' : Swap} (h : Trip k last s)
    (hpte : s'.ptes k = s.ptes k) (hmem : s'.mem = s.mem) (hdisk : s'.disk = s.disk)
    (hnext : s'.ideNext = s.ideNext) (htl : s'.tList = s.tList) : Trip k last s' := by
  have hw : ∀ {t fptr}, Working s t fptr k → Working s' t fptr k := fun hw =>
    ⟨htl ▸ hw.only, hw.fptr, hw.entry, hw.count, hnext ▸ hw.next⟩
  have hin : ∀ {pp n}, InMemory s pp n last → InMemory s' pp n last := by
    intro pp n hm
    unfold InMemory
    rw [hmem]
    exact hm
  have hon : ∀ {slot n}, OnDisk s slot n last → OnDisk s' slot n last := by
    intro slot n hd
    unfold OnDisk
    rw [hdisk]
    exact hd
  cases h with
  | idle hq hp hm => exact .idle (htl ▸ hq) (hpte ▸ hp) (hpte ▸ hin hm)
  | leaving t ht hp hm hpi hslot hd =>
      exact .leaving t (hw ht) (hpte ▸ hp) (hpte ▸ hin hm) (hpte ▸ hpi) hslot (hon hd)
  | away hq hp hd => exact .away (htl ▸ hq) (hpte ▸ hp) (hpte ▸ hon hd)
  | coming t ht hp hav hslot hpi hd hm =>
      exact .coming t (hw ht) (hpte ▸ hp) (hpte ▸ hav) (hpte ▸ hslot) hpi (hon hd) (hin hm)

/-- A store of the owner. -/
theorem Trip.store {e v : ℕ} {last : ℕ → BitVec 8} {s : Swap} {off : ℕ} {b : BitVec 8}
    (h : Trip (.user e v) last s) (hen : (SwapOp.store e v off b).Enabled s)
    (hsafe : TripSafe e v s (.store e v off b)) :
    Trip (.user e v) (Function.update last off b)
      (s.storeByte (pgnum (s.ptes (.user e v))) off b) := by
  have hmem := h.inMemory hen.1
  have hnew : InMemory (s.storeByte (pgnum (s.ptes (.user e v))) off b)
      (pgnum (s.ptes (.user e v))) pgSize
      (Function.update last off b) := by
    intro o ho
    simp only [Swap.storeByte, Function.update_self]
    by_cases hoff : o = off
    · simp [hoff]
    · rw [Function.update_of_ne hoff, Function.update_of_ne hoff]
      exact hmem o ho
  have hpres := hen.1
  cases h with
  | idle hq hp _ => exact .idle hq hp hnew
  | leaving t hw hp _ hpi hslot hdisk =>
      refine .leaving t ⟨hw.only, hw.fptr, hw.entry, hw.count, hw.next⟩ hp hnew hpi hslot ?_
      intro j hj i hi
      have hdiskj : s.disk (t.sectorStart + j) i = last (j * sectSize + i) := hdisk j hj i hi
      change s.disk (t.sectorStart + j) i = _
      by_cases hoff : j * sectSize + i = off
      · -- the byte is on the disk already, and the store does not change it
        have hlt : off < t.count * sectSize := by
          have hle : (j + 1) * sectSize ≤ t.count * sectSize := Nat.mul_le_mul_right _ hj
          rw [Nat.succ_mul] at hle
          omega
        have hb := hsafe t (by simp [hw.only]) hw.fptr hw.entry hlt
        rw [hoff, Function.update_self, hb, hmem off hen.2.2, hdiskj, hoff]
      · rw [Function.update_of_ne hoff]
        exact hdiskj
  | away _ hs _ =>
      rw [isSwapped, hpres] at hs
      exact absurd hs (by simp)
  | coming _ _ hs =>
      rw [isSwapped, hpres] at hs
      exact absurd hs (by simp)

/-- A `page_out` is queued for the page, at the entry of its owner. -/
theorem Trip.reclaim {e v pp : ℕ} {decoy : Option (ℕ × ℕ)} {last : ℕ → BitVec 8} {s s' : Swap}
    (h : Trip (.user e v) last s) (hpp : pp < 2 ^ 20) (hsafe : TripSafe e v s (.reclaim pp decoy))
    (hr : s.reclaim pp decoy = Except.ok s') : Trip (.user e v) last s' := by
  obtain ⟨hfirst, hidle⟩ := hsafe
  rcases reclaim_cases hr with ⟨-, rfl⟩ | ⟨-, k, hfound, rfl⟩
  · exact h
  rw [hfirst.findPteAll] at hfound
  obtain rfl := Option.some.inj hfound
  obtain ⟨hpres, hnum⟩ := pgnum_of_mapsPage hpp hfirst.maps
  cases h with
  | idle hq hp hmem =>
      refine .leaving ⟨.pageOut, 0, 0, pp, .user e v⟩ ⟨?_, rfl, rfl, by simp, by simp⟩ hp hmem
        hnum.symm (by simp) ?_
      · rw [hq]
        rfl
      · intro j hj
        exact absurd hj (by simp)
  | leaving t hw _ _ hpi =>
      rw [hnum] at hpi
      exact absurd hpi (hidle t (by rw [hw.only]; exact List.mem_singleton.2 rfl))
  | away _ hs _ =>
      rw [isSwapped, hpres] at hs
      exact absurd hs (by simp)
  | coming _ _ hs =>
      rw [isSwapped, hpres] at hs
      exact absurd hs (by simp)

/-- A fault on the page queues a `page_in`. -/
theorem Trip.fault {e v pp : ℕ} {last : ℕ → BitVec 8} {s : Swap} (h : Trip (.user e v) last s)
    (hen : (SwapOp.fault e v pp).Enabled s) : Trip (.user e v) last (s.swapIn (.user e v) pp) := by
  generalize hk : PteId.user e v = k at h
  change isSwapped (s.ptes (.user e v)) ∧ s.ptes (.user e v) &&& pteAvail = 0 ∧
    s.available pp at hen
  rw [hk] at hen
  obtain ⟨hswapped, havail, hpp, -⟩ := hen
  have habsent : isPresent (s.ptes k) ≠ true := by
    intro hpres
    rw [isSwapped, hpres] at hswapped
    exact absurd hswapped (by simp)
  cases h with
  | idle _ hp _ => exact absurd hp habsent
  | leaving _ _ hp => exact absurd hp habsent
  | coming _ _ _ hne => exact absurd havail hne
  | away hq hs hdisk =>
      have hfree : s.tList.length < nTasklets := by rw [hq]; decide
      have hpte : (s.swapIn k pp).ptes k = s.ptes k ||| pteAvail := by
        simp [Swap.swapIn, hfree, Swap.setPage, Swap.setPte]
      have hnum : pgnum ((s.swapIn k pp).ptes k) = pgnum (s.ptes k) := by
        rw [hpte, pgnum_or_avail]
      have hd : (s.swapIn k pp).disk = s.disk := by
        simp [Swap.swapIn, hfree, Swap.setPage, Swap.setPte]
      refine .coming ⟨.pageIn, 0, pgnum (s.ptes k), pp, k⟩ ⟨?_, rfl, rfl, by simp, by simp⟩ ?_ ?_
        hnum.symm hpp ?_ ?_
      · rw [Swap.swapIn, if_pos hfree]
        simp [hq, Swap.setPage, Swap.setPte]
      · rw [hpte]
        exact isSwapped_or_avail hs
      · rw [hpte]
        intro hzero
        have hbit := congrArg (fun b : BitVec 32 => b.getLsbD 9) hzero
        simp [pteAvail] at hbit
      · intro j hj i hi
        rw [hd]
        exact hdisk j hj i hi
      · intro o ho
        exact absurd ho (by simp)

/-- Writing the next sector extends what is on the disk. -/
theorem OnDisk.write {s : Swap} {slot n pp : ℕ} {last : ℕ → BitVec 8} (h : OnDisk s slot n last)
    (hnext : s.ideNext = slot + n) (hn : n < nSectors) (hmem : InMemory s pp pgSize last) :
    OnDisk (s.ideWriteSector pp (n * sectSize)) slot (n + 1) last := by
  intro j hj i hi
  simp only [Swap.ideWriteSector, hnext]
  by_cases hjn : j = n
  · subst hjn
    rw [Function.update_self]
    refine hmem _ ?_
    have hle : (j + 1) * sectSize ≤ nSectors * sectSize := Nat.mul_le_mul_right _ hn
    rw [Nat.succ_mul] at hle
    rw [pgSize_eq_sectors]
    omega
  · rw [Function.update_of_ne (by omega)]
    exact h j (by omega) i hi

/-- Reading the next sector extends what is in memory. -/
theorem InMemory.read {s : Swap} {slot n pp : ℕ} {last : ℕ → BitVec 8}
    (h : InMemory s pp (n * sectSize) last) (hnext : s.ideNext = slot + n) (hn : n < nSectors)
    (hdisk : OnDisk s slot nSectors last) :
    InMemory (s.ideReadSector pp (n * sectSize)) pp ((n + 1) * sectSize) last := by
  intro o ho
  rw [Nat.succ_mul] at ho
  simp only [Swap.ideReadSector, Function.update_self, hnext]
  by_cases hlo : n * sectSize ≤ o
  · rw [if_pos ⟨hlo, ho⟩, hdisk n hn (o - n * sectSize) (by omega)]
    congr 1
    omega
  · rw [if_neg (fun hc => hlo hc.1)]
    exact h o (by omega)

theorem OnDisk.congr {s s' : Swap} {slot n : ℕ} {last : ℕ → BitVec 8} (h : OnDisk s slot n last)
    (hdisk : s'.disk = s.disk) : OnDisk s' slot n last := by
  intro j hj i hi
  rw [hdisk]
  exact h j hj i hi

theorem InMemory.congr {s s' : Swap} {pp n : ℕ} {last : ℕ → BitVec 8} (h : InMemory s pp n last)
    (hmem : s'.mem = s.mem) : InMemory s' pp n last := by
  intro o ho
  rw [hmem]
  exact h o ho

/-- A round while the page is on its way out. -/
theorem Trip.roundOut {k : PteId} {last : ℕ → BitVec 8} {s s' : Swap} {t : SwapTask} {ready : Bool}
    (hw : Working s t .pageOut k) (hp : isPresent (s.ptes k) = true)
    (hmem : InMemory s (pgnum (s.ptes k)) pgSize last) (hpi : t.pi = pgnum (s.ptes k))
    (hslot : t.sectorStart < 2 ^ 20) (hdisk : OnDisk s t.sectorStart t.count last)
    (hr : swapRound s ready = Except.ok s') :
    Trip k last s' := by
  have hspotlt : outSpot s t < 2 ^ 20 := by
    unfold outSpot
    split
    · exact findSwapSpot_lt _
    · exact hslot
  have hspot : 0 < t.count → outSpot s t = t.sectorStart := by
    intro hpos
    rw [outSpot, if_neg (by omega)]
  have hdisk' : OnDisk s (outSpot s t) t.count last := by
    intro j hj
    rw [hspot (by omega)]
    exact hdisk j hj
  obtain ⟨hptes, hpages, hmem₀, hdisk₀, -⟩ := s.startAt_frame t (outSpot s t)
  have hnext : (s.startAt t (outSpot s t)).ideNext = outSpot s t + t.count := by
    refine Swap.startAt_next fun hpos => ?_
    rw [hspot hpos]
    exact hw.next hpos
  rcases swapRound_cases hr with ⟨hq, -⟩ | ⟨t', rest, htl, hround⟩
  · rw [hw.only] at hq
    exact absurd hq (by simp)
  rw [hw.only] at htl
  obtain ⟨rfl, rfl⟩ := List.cons.inj htl
  have hf := hw.fptr
  rcases hround with ⟨-, hcount, rfl | rfl⟩ | ⟨-, hcount, s₁, hfin, rfl⟩ | ⟨hf', -⟩ | ⟨hf', -⟩
  · -- the disk was not ready
    refine .leaving { t with sectorStart := outSpot s t }
      ⟨rfl, hf, hw.entry, hw.count, fun _ => hnext⟩
      ?_ ?_ ?_ hspotlt (hdisk'.congr hdisk₀)
    · rw [hptes]
      exact hp
    · rw [hptes]
      exact hmem.congr hmem₀
    · rw [hptes]
      exact hpi
  · -- one sector is written
    have hmem' : InMemory (s.startAt t (outSpot s t)) t.pi pgSize last := by
      rw [hpi]
      exact hmem.congr hmem₀
    have hwritten := OnDisk.write (hdisk'.congr hdisk₀) hnext hcount hmem'
    refine .leaving { t with sectorStart := outSpot s t, count := t.count + 1 }
      ⟨rfl, hf, hw.entry, hcount, fun _ => ?_⟩ ?_ ?_ ?_ hspotlt (hwritten.congr rfl)
    · change (s.startAt t (outSpot s t)).ideNext + 1 = outSpot s t + (t.count + 1)
      rw [hnext]
      rfl
    · change isPresent ((s.startAt t (outSpot s t)).ptes k) = true
      rw [hptes]
      exact hp
    · change InMemory _ (pgnum ((s.startAt t (outSpot s t)).ptes k)) pgSize last
      rw [hptes]
      exact hmem.congr hmem₀
    · change t.pi = pgnum ((s.startAt t (outSpot s t)).ptes k)
      rw [hptes]
      exact hpi
  · have hall : t.count = nSectors := Nat.le_antisymm hw.count hcount
    rcases pageOutFinish_cases hfin with ⟨-, -, rfl⟩ | ⟨-, -, rfl⟩
    · -- the page was not in use any more: the entry stays as it is
      exact .idle rfl hp (hmem.congr rfl)
    · have hpte : ({ (s.setPte t.entry (swappedPte (s.ptes t.entry) t.sectorStart)).setPage t.pi
          { s.pages t.pi with ref := 0, alloc := false } with tList := [] } : Swap).ptes k =
          swappedPte (s.ptes k) t.sectorStart := by
        rw [← hw.entry]
        exact Function.update_self ..
      refine .away rfl ?_ ?_
      · rw [hpte]
        exact isSwapped_swappedPte hp _
      · rw [hpte, pgnum_swappedPte _ hslot, ← hall]
        exact hdisk.congr rfl
  · rw [hf] at hf'
    exact absurd hf' (by simp)
  · rw [hf] at hf'
    exact absurd hf' (by simp)

/-- A round while the page is on its way in. -/
theorem Trip.roundIn {k : PteId} {last : ℕ → BitVec 8} {s s' : Swap} {t : SwapTask} {ready : Bool}
    (hw : Working s t .pageIn k) (hp : isSwapped (s.ptes k) = true)
    (havail : s.ptes k &&& pteAvail ≠ 0) (hslot : t.sectorStart = pgnum (s.ptes k))
    (hpi : t.pi < 2 ^ 20) (hdisk : OnDisk s t.sectorStart nSectors last)
    (hmem : InMemory s t.pi (t.count * sectSize) last) (hr : swapRound s ready = Except.ok s') :
    Trip k last s' := by
  obtain ⟨hptes, -, hmem₀, hdisk₀, -⟩ := s.startAt_frame t t.sectorStart
  have hnext : (s.startAt t t.sectorStart).ideNext = t.sectorStart + t.count :=
    Swap.startAt_next hw.next
  rcases swapRound_cases hr with ⟨hq, -⟩ | ⟨t', rest, htl, hround⟩
  · rw [hw.only] at hq
    exact absurd hq (by simp)
  rw [hw.only] at htl
  obtain ⟨rfl, rfl⟩ := List.cons.inj htl
  have hf := hw.fptr
  rcases hround with ⟨hf', -⟩ | ⟨hf', -⟩ | ⟨-, hcount, rfl | rfl⟩ | ⟨-, hcount, rfl⟩
  · rw [hf] at hf'
    exact absurd hf' (by simp)
  · rw [hf] at hf'
    exact absurd hf' (by simp)
  · refine .coming t ⟨rfl, hf, hw.entry, hw.count, fun _ => hnext⟩ ?_ ?_ ?_ hpi (hdisk.congr hdisk₀)
      (hmem.congr hmem₀)
    · rw [hptes]
      exact hp
    · rw [hptes]
      exact havail
    · rw [hptes]
      exact hslot
  · have hread := InMemory.read (hmem.congr hmem₀) hnext hcount (hdisk.congr hdisk₀)
    refine .coming { t with count := t.count + 1 }
      ⟨rfl, hf, hw.entry, hcount, fun _ => ?_⟩ ?_ ?_ ?_ hpi
      (hdisk.congr hdisk₀) (hread.congr rfl)
    · change (s.startAt t t.sectorStart).ideNext + 1 = t.sectorStart + (t.count + 1)
      rw [hnext]
      rfl
    · change isSwapped ((s.startAt t t.sectorStart).ptes k) = true
      rw [hptes]
      exact hp
    · change (s.startAt t t.sectorStart).ptes k &&& pteAvail ≠ 0
      rw [hptes]
      exact havail
    · change t.sectorStart = pgnum ((s.startAt t t.sectorStart).ptes k)
      rw [hptes]
      exact hslot
  · have hall : t.count = nSectors := Nat.le_antisymm hw.count hcount
    have hpte : ({ pageInFinish s t with tList := [] } : Swap).ptes k =
        broughtPte (s.ptes k) t.pi := by
      rw [← hw.entry]
      exact Function.update_self ..
    refine .idle rfl ?_ ?_
    · rw [hpte]
      exact isPresent_broughtPte _ _
    · rw [hpte, pgnum_broughtPte _ hpi, pgSize_eq_sectors, ← hall]
      exact hmem.congr rfl

/-- **One step of the page's owner or of a kernel thread.** -/
theorem Trip.step {e v : ℕ} {last : ℕ → BitVec 8} {s s' : Swap} {op : SwapOp}
    (h : Trip (.user e v) last s) (honly : OnlyPage e v s op) (hsafe : TripSafe e v s op)
    (hstep : swapStep s op s') :
    Trip (.user e v) (lastAfter e v last op) s' := by
  obtain ⟨hen, hexec⟩ := hstep
  cases op with
  | map => exact absurd honly (by simp [OnlyPage])
  | free => exact absurd honly (by simp [OnlyPage])
  | store e' v' off b =>
      obtain ⟨rfl, rfl⟩ : e' = e ∧ v' = v := honly
      obtain rfl := Except.ok.inj hexec
      rw [lastAfter, if_pos ⟨rfl, rfl⟩]
      exact h.store hen hsafe
  | reclaim pp decoy => exact h.reclaim hen.1 hsafe hexec
  | fault e' v' pp =>
      obtain ⟨rfl, rfl⟩ : e' = e ∧ v' = v := honly
      obtain rfl := Except.ok.inj hexec
      exact h.fault hen
  | big e' j pde =>
      obtain rfl := Except.ok.inj hexec
      exact h.congr ((Swap.ptes_setPte ..).trans (if_neg (by simp))) rfl rfl rfl rfl
  | live e' b =>
      obtain rfl := Except.ok.inj hexec
      exact h.congr rfl rfl rfl rfl rfl
  | round ready =>
      have hr : swapRound s ready = Except.ok s' := hexec
      cases h with
      | idle hq hp hmem =>
          rcases swapRound_cases hr with ⟨-, rfl⟩ | ⟨t, rest, htl, -⟩
          · exact .idle hq hp hmem
          · rw [hq] at htl
            exact absurd htl (by simp)
      | away hq hp hdisk =>
          rcases swapRound_cases hr with ⟨-, rfl⟩ | ⟨t, rest, htl, -⟩
          · exact .away hq hp hdisk
          · rw [hq] at htl
            exact absurd htl (by simp)
      | leaving t hw hp hmem hpi hslot hdisk => exact Trip.roundOut hw hp hmem hpi hslot hdisk hr
      | coming t hw hp havail hslot hpi hdisk hmem =>
          exact Trip.roundIn hw hp havail hslot hpi hdisk hmem hr

/-! ### Whole runs -/

/-- The phases along a run. -/
theorem Trip.run {e v : ℕ} {first : ℕ → BitVec 8} {s t : Swap} {tr : List (Swap × SwapOp)}
    (h : Trip (.user e v) first s) (hrun : Run swapStep s tr t) (honly : Meets (OnlyPage e v) tr)
    (hsafe : Meets (TripSafe e v) tr) : Trip (.user e v) (lastStored e v first tr) t := by
  induction hrun with
  | nil => exact h
  | snoc _ hst ih =>
      obtain ⟨hbefore, hlast⟩ := hsafe.of_snoc
      obtain ⟨honly, hop⟩ := honly.of_snoc
      rw [lastStored_snoc]
      exact (ih honly hbefore).step hop hlast hst

/-- **No update is lost.** Take a page that is present, with no tasklet at work, and any run of
stores of its owner, swapping and faults in which no store changes a byte of a sector that has
already been written and `find_pte_all` comes to the entry of the owner first: whenever the page is
present, each of its bytes is the last one that was stored there. -/
theorem no_lost_update {e v : ℕ} {s t : Swap} {tr : List (Swap × SwapOp)}
    (hpresent : isPresent (s.ptes (.user e v)) = true) (hidle : s.tList = [])
    (hrun : Run swapStep s tr t) (honly : Meets (OnlyPage e v) tr) (hsafe : Meets (TripSafe e v) tr)
    (hback : isPresent (t.ptes (.user e v)) = true) {o : ℕ} (ho : o < pgSize) :
    t.mem (pgnum (t.ptes (.user e v))) o =
      lastStored e v (s.mem (pgnum (s.ptes (.user e v)))) tr o := by
  have hstart : Trip (.user e v) (s.mem (pgnum (s.ptes (.user e v)))) s :=
    .idle hidle hpresent fun _ _ => rfl
  exact (hstart.run hrun honly hsafe).inMemory hback o ho

/-! ### Concrete runs -/

/-- One page, full of zeros, mapped by the environment 2 at the address `0x1000`. -/
def onePage : Swap where
  live := fun e => e = 2
  tables := fun e j => e = 2 && j = 0
  ptes := fun k => if k = .user 2 1 then page2pa 16 ||| 7#32 else k.boot
  pages := fun pp => if pp = 16 then ⟨1, true⟩ else ⟨0, false⟩
  mem := fun _ _ => 0
  disk := fun _ _ => 0
  ideNext := 0
  swapMap := Bitmap.empty
  tList := []

/-- The page is swapped out and in again, and a byte is stored when two sectors are written. -/
def tripWithStore (off : ℕ) (b : BitVec 8) : List SwapOp :=
  .reclaim 16 none :: List.replicate 2 (.round true) ++ .store 2 1 off b :: List.replicate 7
    (.round true) ++
    .live 3 true :: .fault 2 1 17 :: List.replicate 9 (.round true)

instance (e v : ℕ) (s : Swap) : (op : SwapOp) → Decidable (OnlyPage e v s op)
  | .store _ _ _ _ => inferInstanceAs (Decidable (_ ∧ _))
  | .reclaim _ _ => inferInstanceAs (Decidable (_ = _))
  | .fault _ _ _ => inferInstanceAs (Decidable (_ ∧ _))
  | .round _ => inferInstanceAs (Decidable True)
  | .map _ _ _ _ => inferInstanceAs (Decidable False)
  | .free _ _ => inferInstanceAs (Decidable False)
  | .big _ _ _ => inferInstanceAs (Decidable True)
  | .live _ _ => inferInstanceAs (Decidable True)

/-- A step that loses no update, for a reason that can be computed. -/
def plainlyTripSafe (s : Swap) : SwapOp → Bool
  | .store _ _ off b =>
      s.tList.head?.all fun t => t.count * sectSize ≤
        off || b == s.mem (pgnum (s.ptes (.user 2 1))) off
  | .reclaim pp decoy => s.live 2 && s.tables 2 0 && mapsPage (s.ptes (.user 2 1)) pp &&
      !mapsPage (s.ptes (.user 2 0)) pp && decoy.isNone && s.tList.isEmpty
  | _ => true

theorem tripSafe_of_plainlyTripSafe {s : Swap} {op : SwapOp} (h : plainlyTripSafe s op = true) :
    TripSafe 2 1 s op := by
  cases op with
  | store e v off b =>
      intro t ht _ _ hlt
      have hahead := (Option.all_eq_true _ _).1 h t ht
      simp only [Bool.or_eq_true, decide_eq_true_iff, beq_iff_eq] at hahead
      exact hahead.resolve_left (by omega)
  | reclaim pp decoy =>
      simp only [plainlyTripSafe, Bool.and_eq_true, Bool.not_eq_true', Option.isNone_iff_eq_none,
        List.isEmpty_iff] at h
      obtain ⟨⟨⟨⟨⟨hlive, htable⟩, hmaps⟩, hfirst⟩, rfl⟩, hidle⟩ := h
      refine ⟨⟨by decide, by decide, hlive, fun e' hlo hhi => ?_, htable, hmaps, fun v' hv' _ =>
        ?_, by simp⟩, ?_⟩
      · exact absurd hhi (Nat.not_lt.2 hlo)
      · obtain rfl : v' = 0 := by omega
        exact hfirst
      · simp [hidle]
  | round ready => exact True.intro
  | map e v pp perm => exact True.intro
  | fault e v pp => exact True.intro
  | free e v => exact True.intro
  | big e j pde => exact True.intro
  | live e b => exact True.intro

/-- A store into the third sector, while the first two are written, comes back. -/
theorem no_lost_update_third_sector : ∃ t tr, Run swapStep onePage tr t ∧
    tr.map Prod.snd = tripWithStore 1500 7 ∧ pgnum (t.ptes (.user 2 1)) = 17 ∧
    t.mem 17 1500 = 7#8 := by
  have hexec : (execAll (fun s op => if plainlyTripSafe s op = true ∧
      OnlyPage 2 1 s op then swapNext s op else none)
      onePage (tripWithStore 1500 7)).map (fun t =>
        (isPresent (t.ptes (.user 2 1)), pgnum (t.ptes (.user 2 1)))) =
      some (true, 17) := by decide +kernel
  obtain ⟨t, hexec, hview⟩ := Option.map_eq_some_iff.1 hexec
  obtain ⟨hp, hpp⟩ := Prod.mk.inj hview
  obtain ⟨tr, hrun, hmeets, htr⟩ := run_of_guarded (fun _ _ _ => swapStep_of_next) hexec
  have hbyte := no_lost_update (by decide) rfl hrun (fun p hp => (hmeets p hp).2)
    (fun p hp => tripSafe_of_plainlyTripSafe (hmeets p hp).1) hp (o := 1500) (by decide)
  refine ⟨t, tr, hrun, htr, hpp, ?_⟩
  rw [hpp] at hbyte
  rw [hbyte, lastStored_eq_foldl, htr]
  decide +kernel

/-- A store into the first sector after it is written is lost. -/
theorem update_lost : ¬ ∀ (e v : ℕ) (s t : Swap) (tr : List (Swap × SwapOp)),
    isPresent (s.ptes (.user e v)) = true → s.tList = [] → Run swapStep s tr t →
      Meets (OnlyPage e v) tr → isPresent (t.ptes (.user e v)) = true → ∀ o < pgSize,
        t.mem (pgnum (t.ptes (.user e v))) o =
          lastStored e v (s.mem (pgnum (s.ptes (.user e v)))) tr o := by
  intro h
  have hexec : (execAll (fun s op => if OnlyPage 2 1 s op then swapNext s op else none)
      onePage (tripWithStore 0 7)).map
        (fun t => (isPresent (t.ptes (.user 2 1)), t.mem (pgnum (t.ptes (.user 2 1))) 0)) =
          some (true, 0#8) := by
    decide +kernel
  obtain ⟨t, hexec, hview⟩ := Option.map_eq_some_iff.1 hexec
  obtain ⟨hp, hbyte⟩ := Prod.mk.inj hview
  obtain ⟨tr, hrun, honly, htr⟩ := run_of_guarded (fun _ _ _ => swapStep_of_next) hexec
  have hread := h 2 1 onePage t tr (by decide) rfl hrun honly hp 0 (by decide)
  rw [hbyte, lastStored_eq_foldl, htr] at hread
  exact absurd hread (by decide +kernel)

end Jos
