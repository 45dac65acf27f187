/-
**The end of a `page_out`.**

When all sectors of a page are written, `page_out` in `kern/mm_pres.c` turns the entries that map
the page into entries that record its sector. The first entry is the one that the tasklet names. For
a page with several references the loop goes on with the entries that `find_pte_all` finds, and
stops when `pp_ref` is 1, but nothing in the loop changes `pp_ref`; and the address that
`find_pte_all` is to return is not written to a variable but through the user address that the
tasklet holds.

Main definitions:

* `Jos.OutState`, `Jos.OutTask` — the state, with the stores through user addresses as a history,
  and the tasklet;
* `Jos.findPteAll` — the search through the page tables of the environments that are alive;
* `Jos.pageOutFrom`, `Jos.pageOutEnd` — the loop over the entries, and the last round of `page_out`;
* `Jos.Outgoing` — a page that is mapped by a number of environments and has been written;
* `Jos.SwappedOut` — what is to happen to it.

Main results:

* `Jos.pageOutFrom_shared` — with two references the loop never ends well;
* `Jos.pageOutEnd_single` — with one the page is swapped out;
* `Jos.swappedOut_iff` — **the round is completed** exactly for a page with one reference.
-/

import JosKernel.PageMap
import JosKernel.SwapEntry
import JosKernel.Walks

set_option relaxedAutoImplicit false
set_option autoImplicit false

namespace Jos

open LinkedList Outcome

/-! ### The state -/

-- `NKTHREADS`: the first environments are kernel threads.
def nKthreads : ℕ := 2

/-- **The state in which `page_out` works**: the memory, the environment whose directory is loaded,
the states of the environments and the bitmap of the swap area. The *history* field `userStores`
records the addresses below `UTOP` that the kernel stores to. -/
structure OutState where
  vm : Vm
  cr3 : ℕ
  status : ℕ → EnvStatus
  swapMap : Bitmap
  userStores : List (BitVec 32)

/-- `struct tasklet` of a `page_out` that has written its sectors. -/
structure OutTask where
  pi : ℕ
  sectorStart : ℕ
  requestorEnv : Option ℕ
  faultAddr : BitVec 32
  deriving DecidableEq, Repr

/-! ### `find_pte_all` -/

/-- `*fault_addr = w`, for an address of a user. -/
def userStore (s : OutState) (faultAddr w : BitVec 32) : Except Crash OutState := do
  let vm ← kernelFill s.vm s.cr3 faultAddr (fun k => w.extractLsb' (8 * k) 8) 4
  pure { s with vm := vm, userStores := faultAddr :: s.userStores }

/-- The states of the environments that are looked at. -/
def EnvStatus.searched : EnvStatus → Bool
  | .running | .runnable | .sleeping => true
  | _ => false

/-- The loop over the entries of a page table. -/
def findPteTable (m : Mm) (t : ℕ) (pa : BitVec 32) : Option ℕ :=
  (List.range nPdEntries).find? fun k => isPresent (m.word t k) && pteAddr (m.word t k) == pa

/-- The loop over the entries of a directory. The frame that an entry leads to is taken for a page
table. -/
def findPteDir (m : Mm) (dir : ℕ) (pa : BitVec 32) : List ℕ → Except Crash (Option (ℕ × ℕ × PtePtr))
  | [] => pure none
  | j :: js =>
      if isPresent (m.word dir j) then do
        let _ ← kaddr m.npages (pteAddr (m.word dir j))
        match findPteTable m (pgnum (m.word dir j)) pa with
        | some k => pure (some (j, k, ⟨pgnum (m.word dir j), k⟩))
        | none => findPteDir m dir pa js
      else findPteDir m dir pa js

/-- The loop over the environments. -/
def findPteEnvs (s : OutState) (pa : BitVec 32) :
    List ℕ → Except Crash (Option (ℕ × ℕ × ℕ × PtePtr))
  | [] => pure none
  | i :: is =>
      if (s.status i).searched then
        match s.vm.pgdir i with
        | none => throw .nullDeref
        | some dir => do
            let found ← findPteDir s.vm.mm dir pa (List.range nPdEntries)
            match found with
            | some (j, k, p) => pure (some (i, j, k, p))
            | none => findPteEnvs s pa is
      else findPteEnvs s pa is

/-- **`find_pte_all(p, e, fault_addr)`**, which is called with a pointer that the user could use.
The first two results are the pointer that is returned and the new value of `*e`. -/
def findPteAll (s : OutState) (pp : ℕ) (e : Option ℕ) (faultAddr : BitVec 32) :
    Except Crash (Option PtePtr × Option ℕ × OutState) := do
  let s ← userStore s faultAddr 0
  let found ← findPteEnvs s (page2pa pp) (List.range' nKthreads (nEnv - nKthreads))
  match found with
  | none => pure (none, e, s)
  | some (i, j, k, p) => do
      let s ← userStore s faultAddr (pgAddr j k ||| page2pa pp &&& 0xfff#32)
      pure (some p, some i, s)

/-! ### The last round of `page_out` -/

/-- The entry of a page that has been written from the sector `slot` on; `cow` is `cow_flag`. -/
def outPte (pte : BitVec 32) (slot : ℕ) (cow : Bool) : BitVec 32 :=
  if cow then
    let p := pte ^^^ pteP
    let p := p &&& 0xFFF#32
    let p := p ||| BitVec.ofNat 32 slot <<< 12
    let p := p ||| pteG
    p ||| pteAvail
  else swappedPte pte slot

/-- The jumps to `COW` that are followed. Every entry that the loop comes to after the first one is
present before and not afterwards. -/
def outFuel : ℕ := nEnv * nPdEntries * nPdEntries + 2

/-- `pp->pp_ref--; page_free(pp);`. -/
def dropAndFree (s : Vm) (pp : ℕ) : Except Crash Vm := do
  let s := s.setRef pp (s.ref pp - 1)
  let mm ← pageFree s.mm pp
  pure { s with mm := mm }

/-- The loop from `COW` on, with the entry `p`. The entry is read before it is compared with
`NULL`. -/
def pageOutFrom (cow : Bool) : ℕ → OutTask → Option PtePtr → OutState → Except Crash OutState
  | 0, _, _, _ => throw .diverges
  | _ + 1, _, none, _ => throw .nullDeref
  | n + 1, t, some p, s =>
      let vm := s.vm.setPte p (outPte (s.vm.pte p) t.sectorStart cow)
      if 1 < vm.ref t.pi then do
        let (p, e, s) ← findPteAll { s with vm := vm } t.pi t.requestorEnv t.faultAddr
        pageOutFrom cow n { t with requestorEnv := e } p s
      else do
        let vm ← dropAndFree vm t.pi
        pure { s with vm := vm }

/-- **The last round of `page_out(t)`.** -/
def pageOutEnd (s : OutState) (t : OutTask) : Except Crash OutState :=
  if s.vm.ref t.pi = 0 then
    -- the page has been freed while it was written
    if (s.vm.mm.pages t.pi).has alloc then throw (.panic "page out finished but page with ref")
    else pure { s with swapMap := toggleBit s.swapMap t.sectorStart }
  else
    match t.requestorEnv with
    | none => throw .nullDeref
    | some e => do
        let p ← pgdirFind s.vm (s.vm.pgdir e) t.faultAddr
        pageOutFrom (decide (1 < s.vm.ref t.pi)) outFuel t p s

/-! ### A page that goes out -/

/-- **An entry of a user that maps the page `pp`**: a small page below `UTOP`, in the page table
`table`, which is a frame of its own. -/
structure UserMaps (s : Vm) (pp e : ℕ) (va : BitVec 32) (dir table : ℕ) : Prop where
  low : va < uTop
  space : s.pgdir e = some dir
  pde : s.mm.HasTable dir (vpn va / 1024)
  leads : pgnum (s.mm.word dir (vpn va / 1024)) = table
  bound : table < s.mm.npages
  present : isPresent (s.mm.word table (vpn va % 1024)) = true
  user : isUser (s.mm.word table (vpn va % 1024)) = true
  frame : pgnum (s.mm.word table (vpn va % 1024)) = pp
  apart : dir ≠ table ∧ dir ≠ pp ∧ table ≠ pp

/-- **A page that is mapped in a number of environments** and has been written to its sectors:
`users` are the environments and the addresses, and the tasklet names one of them. -/
structure Outgoing (s : OutState) (t : OutTask) (users : List (ℕ × BitVec 32)) (l : List ℕ) :
    Prop where
  free : FreeInv s.vm.mm l
  held : s.vm.mm.Held t.pi
  slot : t.sectorStart < sizeSwapMap
  maps : ∀ u ∈ users, ∃ dir table, UserMaps s.vm t.pi u.1 u.2 dir table
  alive : ∀ u ∈ users, nKthreads ≤ u.1 ∧ u.1 < nEnv ∧ (s.status u.1).searched = true
  distinct : (users.map Prod.fst).Nodup
  refs : (s.vm.ref t.pi).toNat = users.length
  requestor : ∃ e, t.requestorEnv = some e ∧ (e, t.faultAddr) ∈ users

/-- **The page is swapped out**: the round returns without a store to user memory, every entry is
one for the sector, the page has no references and is on the free list. -/
def SwappedOut (s : OutState) (t : OutTask) (users : List (ℕ × BitVec 32)) : Prop :=
  ∃ s', pageOutEnd s t = .ok s' ∧ s'.userStores = s.userStores ∧
    (∀ u ∈ users, ∃ dir w, s'.vm.pgdir u.1 = some dir ∧
      s'.vm.mm.leaf dir (vpn u.2) = some (w, false) ∧
      isSwapped w = true ∧ pgnum w = t.sectorStart) ∧
    s'.vm.ref t.pi = 0 ∧ s'.vm.mm.OnFreeList t.pi

/-! ### A page with several references -/

theorem kernelFill_pages (s : Vm) (e : ℕ) (va : BitVec 32) (src : ℕ → BitVec 8) (n : ℕ) :
    Ends (fun _ => True) (fun s' => s'.mm.pages = s.mm.pages) (kernelFill s e va src n) := by
  rw [kernelFill, List.range_eq_range']
  refine ends_foldlM_range' (P := fun _ (s' : Vm) => s'.mm.pages = s.mm.pages) rfl fun k _ s' hs' =>
    ?_
  rw [kernelStore]
  split
  · exact hs'
  · exact True.intro

theorem findPteAll_pages (s : OutState) (pp : ℕ) (e : Option ℕ) (faultAddr : BitVec 32) :
    Ends (fun _ => True) (fun r => r.2.2.vm.mm.pages = s.vm.mm.pages)
      (findPteAll s pp e faultAddr) := by
  have hstore : ∀ (s : OutState) (w : BitVec 32),
      Ends (fun _ => True) (fun s' => s'.vm.mm.pages = s.vm.mm.pages)
        (userStore s faultAddr w) := by
    intro s w
    rw [userStore, ends_bind]
    exact (kernelFill_pages ..).post fun vm hvm => hvm
  rw [findPteAll, ends_bind]
  refine (hstore s 0).post fun s₁ h₁ => ?_
  rw [ends_bind]
  refine Ends.of_forall (fun found => ?_) _
  cases found with
  | none => exact h₁
  | some r =>
      dsimp only
      rw [ends_bind]
      exact (hstore s₁ _).post fun s₂ h₂ => h₂.trans h₁

/-- **With two references the loop never ends well**: `pp_ref` stays as it is. -/
theorem pageOutFrom_shared (cow : Bool) :
    ∀ (n : ℕ) (t : OutTask) (p : Option PtePtr) (s : OutState), 1 < s.vm.ref t.pi →
    Ends (fun _ => True) (fun _ => False) (pageOutFrom cow n t p s) := by
  intro n
  induction n with
  | zero => intro t p s _; exact True.intro
  | succ n ih =>
      intro t p s href
      cases p with
      | none => exact True.intro
      | some p =>
          have href' : 1 < (s.vm.setPte p (outPte (s.vm.pte p) t.sectorStart cow)).ref t.pi := href
          rw [pageOutFrom]
          dsimp only
          rw [if_pos href', ends_bind]
          refine (findPteAll_pages _ t.pi t.requestorEnv t.faultAddr).post ?_
          rintro ⟨q, e, s'⟩ hpages
          refine ih { t with requestorEnv := e } q s' ?_
          rw [Vm.ref, hpages]
          exact href

/-- The round does not return. -/
theorem pageOutEnd_shared {s : OutState} {t : OutTask} (href : 1 < s.vm.ref t.pi) (s' : OutState) :
    pageOutEnd s t ≠ .ok s' := by
  have hends : Ends (fun _ => True) (fun _ => False) (pageOutEnd s t) := by
    rw [pageOutEnd]
    refine ends_ite (fun hzero => ?_) fun _ => ?_
    · rw [hzero] at href
      exact absurd href (by decide)
    · cases t.requestorEnv with
      | none => exact True.intro
      | some e =>
          dsimp only
          rw [ends_bind]
          exact Ends.of_forall (fun p => pageOutFrom_shared _ outFuel t p s href) _
  exact fun hs' => hends.of_ok hs'

/-! ### A page with one reference -/

/-- What the walk for a small page finds. -/
theorem UserMaps.find {s : Vm} {pp e dir table : ℕ} {va : BitVec 32}
    (h : UserMaps s pp e va dir table) :
    pgdirFind s (s.pgdir e) va = .ok (some ⟨table, vpn va % 1024⟩) := by
  have hP := h.pde.1
  have hH := h.pde.2
  have hkaddr : kaddr s.mm.npages (pteAddr (s.mm.word dir (vpn va / 1024))) =
      .ok (pteAddr (s.mm.word dir (vpn va / 1024)) + kernBase) := by
    rw [kaddr, pgnum_pteAddr, h.leads, if_neg (Nat.not_le.2 h.bound)]
    rfl
  rw [h.space, pgdirFind, pdx_eq, Vm.pte, if_pos hP, walkEnd, Vm.pte, hH, Bool.or_false,
    if_neg Bool.false_ne_true, hkaddr, ptx_eq]
  change Except.ok (some (PtePtr.mk (pgnum (pteAddr (s.mm.word dir (vpn va / 1024))))
    (vpn va % 1024))) = _
  rw [pgnum_pteAddr, h.leads]

/-- The round for a page with one reference. -/
theorem pageOutEnd_eq {s : OutState} {t : OutTask} {e : ℕ} {p : PtePtr} (href : s.vm.ref t.pi = 1)
    (he : t.requestorEnv = some e)
    (hfind : pgdirFind s.vm (s.vm.pgdir e) t.faultAddr = .ok (some p)) :
    pageOutEnd s t = dropAndFree (s.vm.setPte p (swappedPte (s.vm.pte p) t.sectorStart)) t.pi >>=
      fun vm =>
      pure { s with vm := vm } := by
  have hne : s.vm.ref t.pi ≠ 0 := by
    rw [href]
    decide
  have hlast : ¬ 1 < s.vm.ref t.pi := by
    rw [href]
    decide
  obtain ⟨n, hn⟩ : ∃ n, outFuel = n + 1 := ⟨nEnv * nPdEntries * nPdEntries + 1, rfl⟩
  rw [pageOutEnd, if_neg hne, he]
  dsimp only
  rw [hfind, decide_eq_false hlast, hn]
  exact if_neg hlast

/-- **With one reference the page is swapped out.** -/
theorem pageOutEnd_single {s : OutState} {t : OutTask} {users : List (ℕ × BitVec 32)} {l : List ℕ}
    (h : Outgoing s t users l) (hone : users.length = 1) : SwappedOut s t users := by
  obtain ⟨u, hu⟩ := List.length_eq_one_iff.1 hone
  subst hu
  obtain ⟨e, he, hmem⟩ := h.requestor
  obtain rfl := List.mem_singleton.1 hmem
  obtain ⟨dir, table, hmap⟩ := h.maps (e, t.faultAddr) List.mem_cons_self
  have hmap : UserMaps s.vm t.pi e t.faultAddr dir table := hmap
  have href : s.vm.ref t.pi = 1 := by
    refine BitVec.eq_of_toNat_eq ?_
    rw [h.refs, hone]
    rfl
  have hslot : t.sectorStart < 2 ^ 20 := by
    have hlt := h.slot
    rw [sizeSwapMap] at hlt
    omega
  generalize hidx : vpn t.faultAddr % 1024 = idx at *
  obtain ⟨w, hw⟩ : ∃ w, swappedPte (s.vm.pte ⟨table, idx⟩) t.sectorStart = w := ⟨_, rfl⟩
  obtain ⟨vm, hvm⟩ : ∃ vm, (s.vm.setPte ⟨table, idx⟩ w).setRef t.pi (s.vm.ref t.pi - 1) = vm :=
    ⟨_, rfl⟩
  have hword : ∀ g k, vm.mm.word g k = if g = table ∧ k = idx then w else s.vm.mm.word g k := by
    intro g k
    rw [← hvm]
    exact Vm.word_setPte s.vm ⟨table, idx⟩ w g k
  have hfree : FreeInv vm.mm l := by
    rw [← hvm]
    exact (h.free.setWord w table idx).setRef (h.free.not_mem_of_held h.held) _
  have hheld : vm.mm.Held t.pi := by
    rw [← hvm]
    exact h.held.congr rfl (Vm.flags_setRef (s.vm.setPte ⟨table, idx⟩ w) t.pi t.pi _)
  have hzero : (vm.mm.pages t.pi).ppRef = 0 := by
    rw [← hvm, Vm.ppRef_setRef, if_pos rfl, href]
    rfl
  obtain ⟨mm, hmm, hgiven, hfree', -⟩ :=
    (pageFree_given hfree hheld).exists_ok fun _ hne => hne hzero
  -- the directory and the table are not the page
  have hapart := hmap.apart
  have hkept : ∀ g, g ≠ t.pi → ∀ k, mm.word g k = vm.mm.word g k :=
    fun g hg => Mm.word_of_mem (hgiven.mem g hg)
  have hdrop : dropAndFree (s.vm.setPte ⟨table, idx⟩ w) t.pi = .ok { vm with mm := mm } := by
    have hvm' : (s.vm.setPte ⟨table, idx⟩ w).setRef t.pi
        ((s.vm.setPte ⟨table, idx⟩ w).ref t.pi - 1) = vm := hvm
    rw [dropAndFree, hvm', hmm]
    rfl
  refine ⟨{ s with vm := { vm with mm := mm } }, ?_, rfl, ?_, hgiven.clear, ?_⟩
  · have hfind := hmap.find
    rw [hidx] at hfind
    rw [pageOutEnd_eq href he hfind, hw, hdrop]
    rfl
  · intro u hu
    obtain rfl := List.mem_singleton.1 hu
    have hspace : vm.pgdir e = some dir := by
      rw [← hvm]
      exact hmap.space
    have hpde : mm.word dir (vpn t.faultAddr / 1024) =
      s.vm.mm.word dir (vpn t.faultAddr / 1024) := by
      rw [hkept dir hapart.2.1, hword, if_neg fun hc => hapart.1 hc.1]
    have hpte : mm.word table idx = w := by
      rw [hkept table hapart.2.2, hword, if_pos ⟨rfl, rfl⟩]
    refine ⟨dir, w, hspace, ?_, ?_, ?_⟩
    · change mm.leaf dir (vpn t.faultAddr) = _
      rw [Mm.leaf, hpde, if_pos hmap.pde.1, if_neg (by rw [hmap.pde.2]; exact Bool.false_ne_true),
        hmap.leads, hidx, hpte]
    · rw [← hw]
      refine isSwapped_swappedPte ?_ _
      rw [← hidx]
      exact hmap.present
    · rw [← hw]
      exact pgnum_swappedPte _ hslot
  · exact hfree'.visits_iff.2 List.mem_cons_self

/-- **The round is completed** exactly for a page with one reference. -/
theorem swappedOut_iff {s : OutState} {t : OutTask} {users : List (ℕ × BitVec 32)} {l : List ℕ}
    (h : Outgoing s t users l) :
    SwappedOut s t users ↔ users.length = 1 := by
  refine ⟨fun hout => ?_, pageOutEnd_single h⟩
  obtain ⟨s', hs', -⟩ := hout
  obtain ⟨e, -, hmem⟩ := h.requestor
  have hpos := List.length_pos_of_mem hmem
  by_contra hne
  have href : 1 < s.vm.ref t.pi := by
    rw [BitVec.lt_def, h.refs]
    change 1 < users.length
    omega
  exact pageOutEnd_shared href s' hs'

/-! ### Two pages -/

/-- The words of memory: the environment 2 maps the frame 3 at `0x400000`, and after a fork so does
the environment 3. -/
def outWords (forked : Bool) (f i : ℕ) : BitVec 32 :=
  if f = 1 ∧ i = 1 then tablePde 2
  else if f = 2 ∧ i = 0 then page2pa 3 ||| pteP ||| pteU
  else if forked ∧ f = 4 ∧ i = 1 then tablePde 5
  else if forked ∧ f = 5 ∧ i = 0 then page2pa 3 ||| pteP ||| pteU
  else 0

/-- A machine in which the frame 3 has been written to the swap area. -/
def outState (forked : Bool) : OutState where
  vm :=
    { Vm.ofWords 6 frames_six (outWords forked) fun e => Space.ofDir (if e = 2 then 1 else 4) with
      mm := { (Vm.ofWords 6 frames_six (outWords forked) fun _ => Space.ofDir 1).mm with
        pages := fun pp =>
          { PageInfo.zero with pageFlags := alloc, ppRef := if pp = 3 ∧ forked then 2 else 1 } } }
  cr3 := 2
  status e := if e = 2 ∨ forked ∧ e = 3 then .runnable else .free
  swapMap := ⟨fun _ => 0⟩
  userStores := []

/-- The tasklet that has written the frame 3 from the sector 8 on. -/
def outTask : OutTask := ⟨3, 8, some 2, 0x400000⟩

/-- The environments that map the frame. -/
def outUsers (forked : Bool) : List (ℕ × BitVec 32) :=
  if forked then [(2, 0x400000), (3, 0x400000)] else [(2, 0x400000)]

theorem outState_word (forked : Bool) (f i : ℕ) :
    (outState forked).vm.mm.word f i = outWords forked f i :=
  Mm.word_bytesOf rfl i

theorem outState_outgoing (forked : Bool) :
    Outgoing (outState forked) outTask (outUsers forked) [] := by
  have hmap : ∀ e dir table, (outState forked).vm.pgdir e = some dir →
      outWords forked dir 1 = tablePde table →
      outWords forked table 0 = page2pa 3 ||| pteP ||| pteU → table < 6 →
        dir ≠ table ∧ dir ≠ 3 ∧ table ≠ 3 →
      UserMaps (outState forked).vm 3 e 0x400000 dir table := by
    intro e dir table hspace hpde hpte hbound hapart
    have hpde' : (outState forked).vm.mm.word dir (vpn 0x400000 / 1024) = tablePde table :=
      (outState_word forked dir 1).trans hpde
    have hpte' : (outState forked).vm.mm.word table (vpn 0x400000 % 1024) =
        page2pa 3 ||| pteP ||| pteU :=
      (outState_word forked table 0).trans hpte
    refine ⟨by decide, hspace, ⟨?_, ?_⟩, ?_, hbound, ?_, ?_, ?_, hapart⟩
    · rw [hpde']
      exact isPresent_tablePde table
    · rw [hpde']
      exact isHuge_tablePde table
    · rw [hpde']
      exact pgnum_tablePde (by omega)
    · rw [hpte']
      decide
    · rw [hpte']
      decide
    · rw [hpte']
      decide
  refine ⟨⟨rfl, by simp, fun _ _ => rfl⟩, ⟨(by decide : 3 < 6), ?_, ?_⟩, by decide, fun u hu => ?_,
    fun u hu => ?_, ?_, ?_, ?_⟩
  · cases forked <;> decide
  · cases forked <;> decide
  · cases forked with
    | false =>
        obtain rfl := List.mem_singleton.1 hu
        exact ⟨1, 2, hmap 2 1 2 rfl (by decide) (by decide) (by decide) (by decide)⟩
    | true =>
        rcases List.mem_pair.1 hu with rfl | rfl
        · exact ⟨1, 2, hmap 2 1 2 rfl (by decide) (by decide) (by decide) (by decide)⟩
        · exact ⟨4, 5, hmap 3 4 5 rfl (by decide) (by decide) (by decide) (by decide)⟩
  · cases forked with
    | false =>
        obtain rfl := List.mem_singleton.1 hu
        decide
    | true =>
        rcases List.mem_pair.1 hu with rfl | rfl
        · decide
        · decide
  · cases forked <;> decide
  · cases forked <;> rfl
  · refine ⟨2, rfl, ?_⟩
    cases forked <;> decide

/-- A page of one environment is swapped out. -/
theorem swappedOut_iff_single : SwappedOut (outState false) outTask (outUsers false) :=
  (swappedOut_iff (outState_outgoing false)).2 rfl

/-- **After a fork the page is not swapped out**: the round does not return. -/
theorem forked_not_swappedOut : Outgoing (outState true) outTask (outUsers true) [] ∧
    (∀ s', pageOutEnd (outState true) outTask ≠ .ok s') ∧ ¬ SwappedOut (outState true) outTask
    (outUsers true) := by
  have hnever := @pageOutEnd_shared (outState true) outTask (by decide)
  refine ⟨outState_outgoing true, hnever, ?_⟩
  rintro ⟨s', hs', -⟩
  exact hnever s' hs'

end Jos
