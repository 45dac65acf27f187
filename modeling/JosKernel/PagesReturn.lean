/-
**When the loops over pages return.**

`vma_remove_pages` and `vma_change_perm` panic where a page table or a frame lies beyond memory,
where a reference count is 0, and where `env_alloc_pages` comes to 0. In an environment whose
references are counted only the last one is left, and it depends on the number of pages that are
there.

Main definitions:

* `Jos.NoHuge` — no page of a range is part of a 4 MB page;
* `Jos.ownedVm` — an environment with two pages, whose references are counted.

Main results:

* `Jos.FreeReady.removes` — **`vma_remove_pages` returns** while the counter does not come to 0;
* `Jos.FreeReady.changes` — **`vma_change_perm` returns** for small pages.
-/

import JosKernel.EnvFree
import JosKernel.Unmap

set_option relaxedAutoImplicit false
set_option autoImplicit false

namespace Jos

/-- No page from `first` to `first + n` is part of a 4 MB page. -/
def NoHuge (m : Mm) (d first n : ℕ) : Prop :=
  ∀ q, first ≤ q → q < first + n → isHuge (m.word d (q / 1024)) = false

theorem NoHuge.succ {m : Mm} {d first n : ℕ} (h : NoHuge m d first (n + 1)) :
    NoHuge m d (first + 1) n := fun q hle hlt => h q (by omega) (by omega)

/-- The pages that are removed depend on what a walk finds. -/
theorem Mm.removed_congr {m m' : Mm} {d : ℕ} : ∀ {n first : ℕ},
    (∀ q, first ≤ q → q < first + n → m'.leaf d q = m.leaf d q) →
    m'.removed d n first = m.removed d n first := by
  intro n
  induction n with
  | zero => exact fun _ => rfl
  | succ n ih =>
      intro first hsame
      have hrest := @ih (first + 1) fun q hle hlt => hsame q (by omega) (by omega)
      rw [Mm.removed, Mm.removed, hsame first (Nat.le_refl _) (by omega)]
      cases m.leaf d first with
      | none => rfl
      | some p =>
          obtain ⟨w, b⟩ := p
          cases b with
          | true =>
              dsimp only
              rw [hrest]
          | false =>
              dsimp only
              rw [hrest]

theorem Mm.length_removed_le (m : Mm) (d : ℕ) : ∀ n first, (m.removed d n first).length ≤ n := by
  intro n
  induction n with
  | zero => exact fun _ => Nat.le_refl 0
  | succ n ih =>
      intro first
      have hrest := ih (first + 1)
      rw [Mm.removed]
      cases m.leaf d first with
      | none => exact Nat.zero_le _
      | some p =>
          obtain ⟨w, b⟩ := p
          cases b with
          | true =>
              dsimp only
              split
              · exact Nat.succ_le_succ (Nat.zero_le n)
              · exact Nat.succ_le_succ hrest
          | false =>
              dsimp only
              split
              · exact Nat.succ_le_succ hrest
              · exact Nat.le_succ_of_le hrest

/-! ### One round -/

section

variable {s s₁ s₂ : Vm} {e n i : ℕ} {va perm : BitVec 32} {p : PtePtr}

/-- `vma_remove_pages` stops where there is no page table. -/
theorem removePagesFrom_stop (hfind : pgdirFind s (s.pgdir e) (pageAt va i) = .ok none) :
    removePagesFrom e va (n + 1) i s = .ok s := by
  rw [removePagesFrom, hfind]
  rfl

/-- `vma_remove_pages` passes over a page that is not present. -/
theorem removePagesFrom_skip (hfind : pgdirFind s (s.pgdir e) (pageAt va i) = .ok (some p))
    (hP : isPresent (s.pte p) = false) :
    removePagesFrom e va (n + 1) i s = removePagesFrom e va n (i + 1) s := by
  rw [removePagesFrom, hfind]
  change (if isPresent (s.pte p) = true then _ else _) = _
  rw [hP, if_neg Bool.false_ne_true]
  rfl

/-- `vma_remove_pages` removes a page that is present. -/
theorem removePagesFrom_page (hfind : pgdirFind s (s.pgdir e) (pageAt va i) = .ok (some p))
    (hP : isPresent (s.pte p) = true) (hremove : pageRemove s (s.pgdir e) (pageAt va i) = .ok s₁)
    (hdrop : dropPages s₁ e (if isHuge (s₁.pte p) then 1024 else 1) = .ok s₂) :
    removePagesFrom e va (n + 1) i s = removePagesFrom e va n (i + 1) s₂ := by
  rw [removePagesFrom, hfind]
  change (if isPresent (s.pte p) = true then _ else _) = _
  rw [hP, if_pos rfl, hremove]
  change (dropPages s₁ e (if isHuge (s₁.pte p) then 1024 else 1) >>= _) = _
  rw [hdrop]
  rfl

/-- `vma_change_perm` stops where there is no page table. -/
theorem changePermFrom_stop (hfind : pgdirFind s (s.pgdir e) (pageAt va i) = .ok none) :
    changePermFrom e va perm (n + 1) i s = .ok s := by
  rw [changePermFrom, hfind]
  rfl

/-- `vma_change_perm` passes over a page that is not present. -/
theorem changePermFrom_skip (hfind : pgdirFind s (s.pgdir e) (pageAt va i) = .ok (some p))
    (hP : isPresent (s.pte p) = false) :
    changePermFrom e va perm (n + 1) i s = changePermFrom e va perm n (i + 1) s := by
  rw [changePermFrom, hfind]
  change (if isPresent (s.pte p) = true then _ else _) = _
  rw [hP, if_neg Bool.false_ne_true]

/-- `vma_change_perm` of a page that is present. -/
theorem changePermFrom_page {pp : ℕ} {ok : Bool}
    (hfind : pgdirFind s (s.pgdir e) (pageAt va i) = .ok (some p)) (hP : isPresent (s.pte p) = true)
    (hlookup : pageLookup s (s.pgdir e) (pageAt va i) = .ok (some pp))
    (hinsert : pageInsert s (s.pgdir e) (some pp) (pageAt va i) perm = .ok (ok, s₁)) :
    changePermFrom e va perm (n + 1) i s = changePermFrom e va perm n (i + 1) s₁ := by
  rw [changePermFrom, hfind]
  change (if isPresent (s.pte p) = true then _ else _) = _
  rw [hP, if_pos rfl, hlookup]
  change (pageInsert s (s.pgdir e) (some pp) (pageAt va i) perm >>= _) = _
  rw [hinsert]
  rfl

/-- **`page_insert` of the frame that is there**, for a page with an entry in a page table. -/
theorem pageInsert_again {d t : ℕ} (hmap : Maps (s.mm.word d (pdx va)) t)
    (hsmall : isHuge (s.mm.word d (pdx va)) = false) (ht : t < s.mm.npages)
    (hP : isPresent perm = false) (hH : isHuge perm = false) :
    pageInsert s (some d) (some (pgnum (s.mm.word t (ptx va)))) va perm =
      .ok (true, s.writePte ⟨t, ptx va⟩ va (pgnum (s.mm.word t (ptx va)))
        (renew perm (s.mm.word t (ptx va)))) := by
  have hsame : pteAddr (s.pte ⟨t, ptx va⟩) = page2pa (pgnum (s.mm.word t (ptx va))) :=
    (pteAddr_eq_page2pa_iff (pgnum_lt _)).2 rfl
  unfold pageInsert
  dsimp only
  rw [hP, if_neg Bool.false_ne_true, hH, if_neg Bool.false_ne_true, pgdirWalk_table hmap hsmall ht]
  change (if isPresent (s.pte ⟨t, ptx va⟩) = true ∧ pteAddr (s.pte ⟨t, ptx va⟩) ≠
    page2pa (pgnum (s.mm.word t (ptx va))) then _ else _) = _
  rw [if_neg fun hc => hc.2 hsame]
  exact congrArg (fun s' : Vm => Except.ok (true, s'.writePte _ va _ _)) (if_neg fun hc => hc hsame)

end

namespace FreeReady

variable {s s' : Vm} {e d : ℕ} {live : List Block} {l : List ℕ} {va perm : BitVec 32}

/-- The areas and the counter of pages are no matter of references. -/
theorem areas (h : FreeReady s e d live l) (hmm : s'.mm = s.mm) (hd : s'.pgdir e = s.pgdir e)
    (hslot : s'.envFrame e = s.envFrame e) : FreeReady s' e d live l := by
  have href : ∀ g, s'.ref g = s.ref g := fun g => congrArg (fun m : Mm => (m.pages g).ppRef) hmm
  refine ⟨?_, ?_, ?_, hd.trans h.dir, h.root, ?_, ?_, ?_, ?_, ?_, ?_, ?_⟩
  · rw [hmm]
    exact h.inv
  · rw [hmm]
    exact h.steady
  · rw [hmm]
    exact h.small
  · rw [hslot]
    exact h.slot
  · rw [hslot]
    exact h.slotDir
  · rw [hmm, hslot]
    exact h.table
  · rw [hmm]
    exact h.apart
  · rw [hmm, hslot]
    exact h.pte
  · intro i hi hP hH
    rw [hmm] at hP hH ⊢
    obtain ⟨b, hb, hh, hstart, hrest⟩ := h.big i hi hP hH
    exact ⟨b, hb, hh, hstart, fun j hj hne => (href j).trans (hrest j hj hne)⟩
  · intro g
    rw [hmm, href]
    exact h.counted g

/-- `pgdir_walk` finds the entry of a page that is not part of a 4 MB page. -/
theorem find {m : Mm} (hnp : s.mm.npages = m.npages)
    (hdir : s.mm.word d (pdx va) = m.word d (pdx va)) (hsmall : isHuge (m.word d (pdx va)) = false)
    (htab : m.HasTable d (pdx va) → pgnum (m.word d (pdx va)) < m.npages) :
    (isPresent (m.word d (pdx va)) = false ∧ pgdirFind s (some d) va = .ok none) ∨
      (m.HasTable d (pdx va) ∧
        pgdirFind s (some d) va = .ok (some ⟨pgnum (m.word d (pdx va)), ptx va⟩)) := by
  cases hP : isPresent (m.word d (pdx va)) with
  | false =>
      refine Or.inl ⟨rfl, ?_⟩
      have hpte : ¬ isPresent (s.pte ⟨d, pdx va⟩) = true := by
        rw [Vm.pte, hdir, hP]
        exact Bool.false_ne_true
      unfold pgdirFind
      dsimp only
      rw [if_neg hpte]
      rfl
  | true =>
      refine Or.inr ⟨⟨hP, hsmall⟩, pgdirFind_table ⟨?_, ?_⟩ ?_ ?_⟩
      · rw [hdir]
        exact hP
      · rw [hdir]
      · rw [hdir]
        exact hsmall
      · rw [hnp]
        exact htab ⟨hP, hsmall⟩

/-- What a walk finds in a page table. -/
theorem leaf_table {m : Mm} {q : ℕ} (ht : m.HasTable d (q / 1024)) :
    m.leaf d q = some (m.word (pgnum (m.word d (q / 1024))) (q % 1024), false) := by
  unfold Mm.leaf
  rw [if_pos ht.1, if_neg (by rw [ht.2]; exact Bool.false_ne_true)]

/-- The counter does not come to 0 when one more of the pages goes. -/
theorem counter_drops {a : BitVec 32} {n : ℕ} (h : a = 0 ∨ n + 1 < a.toNat) (hn : n < 2 ^ 20) :
    a - 1 ≠ 0 ∧ (a - 1 = 0 ∨ n < (a - 1).toNat) := by
  have hone : (1 : BitVec 32).toNat = 1 := rfl
  rcases h with rfl | hlt
  · refine ⟨by decide, Or.inr ?_⟩
    change n < 4294967295
    omega
  · have hval : (a - 1).toNat = a.toNat - 1 := by
      rw [BitVec.toNat_sub_of_le (BitVec.le_def.2 (by omega)), hone]
    refine ⟨fun hz => ?_, Or.inr (by omega)⟩
    rw [hz] at hval
    change 0 = _ at hval
    omega

/-- **`vma_remove_pages` returns** while the counter does not come to 0. -/
theorem removes {va : BitVec 32} : ∀ (n i : ℕ) (s : Vm) (live : List Block) (l : List ℕ),
    FreeReady s e d live l → LowPages va i n → NoHuge s.mm d (vpn va + i) n → n < 2 ^ 20 →
    ((s.envs e).allocPages = 0 ∨
      (s.mm.removed d n (vpn va + i)).length < (s.envs e).allocPages.toNat) →
    ∃ s', removePagesFrom e va n i s = .ok s' := by
  intro n
  induction n with
  | zero => exact fun _ s _ _ _ _ _ _ _ => ⟨s, rfl⟩
  | succ n ih =>
      intro i s live l h hend hsmall hn hcount
      obtain ⟨hva, hvpn⟩ := pageAt_lt hend
      have hlow : vpn (pageAt va i) / 1024 < pdx uTop := pdx_eq (pageAt va i) ▸ pdx_lt_of_lt hva
      have hfirst := hsmall (vpn va + i) (Nat.le_refl _) (by omega)
      rw [← hvpn, ← pdx_eq] at hfirst
      rw [← pdx_eq] at hlow
      have hword := leaf_table (m := s.mm) (d := d) (q := vpn (pageAt va i))
      rw [← pdx_eq, ← ptx_eq] at hword
      rcases find (s := s) (m := s.mm) rfl rfl hfirst
        (fun ht => single_lt h.inv (h.table _ hlow ht).1) with ⟨-, hfind⟩ | ⟨ht, hfind⟩
      · rw [← h.dir] at hfind
        exact ⟨s, removePagesFrom_stop hfind⟩
      rw [← h.dir] at hfind
      have hleaf := hword ht
      rw [hvpn] at hleaf
      rw [Mm.removed, hleaf] at hcount
      dsimp only at hcount
      cases hP : isPresent (s.mm.word (pgnum (s.mm.word d (pdx (pageAt va i)))) (ptx (pageAt va i)))
        with
      | false =>
          rw [hP, if_neg Bool.false_ne_true, List.nil_append] at hcount
          rw [removePagesFrom_skip hfind hP]
          exact ih (i + 1) s live l h hend.succ hsmall.succ (by omega) hcount
      | true =>
          rw [hP, if_pos rfl, List.singleton_append, List.length_cons] at hcount
          obtain ⟨s₁, live₁, l₁, hremove, hready, hdrops, hdir, htab⟩ :=
            h.pageRemove_drops rfl rfl hlow ht hP
          have hrest := Mm.length_removed_le s.mm d n (vpn va + i + 1)
          obtain ⟨hne, hcount'⟩ := counter_drops hcount (by omega)
          have hone : isHuge (s₁.pte ⟨pgnum (s.mm.word d (pdx (pageAt va i))), ptx (pageAt va i)⟩) =
              false := by
            rw [Vm.pte, htab _ hlow ht, if_pos ⟨rfl, rfl⟩]
            decide
          obtain ⟨s₂, hs₂⟩ : ∃ s₂, (s₁.modSpace e fun sp =>
              { sp with allocPages := sp.allocPages - 1 }) = s₂ := ⟨_, rfl⟩
          have hpages : (s₂.envs e).allocPages = (s.envs e).allocPages - 1 := by
            rw [← hs₂, Vm.modSpace_self, hdrops.space.envs]
          have hmm : s₂.mm = s₁.mm := by
            rw [← hs₂]
            rfl
          have hready₂ : FreeReady s₂ e d live₁ l₁ := by
            refine hready.areas hmm ?_ ?_
            · rw [← hs₂]
              refine pgdir_modSpace s₁ e ?_ e
              exact fun _ => rfl
            · rw [← hs₂]
              rfl
          rw [← h.dir] at hremove
          rw [@removePagesFrom_page s s₁ s₂ e n i va _ hfind hP hremove ?_]
          rotate_left
          · rw [hone, if_neg Bool.false_ne_true]
            unfold dropPages
            dsimp only
            rw [hs₂, hpages, if_neg hne]
            rfl
          -- the pages behind it are as before
          have hleaf₂ : ∀ q, vpn va + i + 1 ≤ q → q < vpn va + i + 1 + n →
              s₂.mm.leaf d q = s.mm.leaf d q := by
            intro q hle hlt
            have hq := hend.at_page (q := q) (by omega) (by omega)
            unfold Mm.leaf
            rw [hmm, hdir]
            cases hPq : isPresent (s.mm.word d (q / 1024)) with
            | false => rfl
            | true =>
                have hHq := hsmall q (by omega) (by omega)
                rw [if_pos rfl, if_pos rfl, hHq, if_neg Bool.false_ne_true,
                  if_neg Bool.false_ne_true,
                  htab _ hq ⟨hPq, hHq⟩, if_neg]
                rintro ⟨hx, hy⟩
                rw [pdx_eq, hvpn] at hx
                rw [ptx_eq, hvpn] at hy
                omega
          refine ih (i + 1) s₂ live₁ l₁ hready₂ hend.succ (fun q hle hlt => ?_) (by omega) ?_
          · rw [hmm, hdir]
            exact hsmall q (by omega) (by omega)
          · rw [hpages, ← Nat.add_assoc, Mm.removed_congr hleaf₂]
            exact hcount'

/-- **`vma_change_perm` returns** where neither `PTE_P` nor `PTE_PS` is asked for and no page of the
range is part of a 4 MB page. The pages that the loop still comes to are as at its beginning. -/
theorem changes {s₀ : Vm} (h : FreeReady s₀ e d live l) (hP : isPresent perm = false)
    (hH : isHuge perm = false) : ∀ (n i : ℕ) (s : Vm), s.pgdir e = some d →
    s.mm.npages = s₀.mm.npages → (∀ k, s.mm.word d k = s₀.mm.word d k) →
    (∀ q, vpn va + i ≤ q → q / 1024 < pdx uTop → s₀.mm.HasTable d (q / 1024) →
      s.mm.word (pgnum (s₀.mm.word d (q / 1024))) (q % 1024) =
        s₀.mm.word (pgnum (s₀.mm.word d (q / 1024))) (q % 1024)) →
    LowPages va i n → NoHuge s₀.mm d (vpn va + i) n →
    ∃ s', changePermFrom e va perm n i s = .ok s' := by
  intro n
  induction n with
  | zero => exact fun _ s _ _ _ _ _ _ => ⟨s, rfl⟩
  | succ n ih =>
      intro i s hd hnp hdir htab hend hsmall
      obtain ⟨hva, hvpn⟩ := pageAt_lt hend
      have hlow : vpn (pageAt va i) / 1024 < pdx uTop := pdx_eq (pageAt va i) ▸ pdx_lt_of_lt hva
      have hfirst := hsmall (vpn va + i) (Nat.le_refl _) (by omega)
      have hself := htab (vpn (pageAt va i)) (by omega) hlow
      have hbehind : ∀ q, vpn va + (i + 1) ≤ q → q ≠ vpn (pageAt va i) := fun q hle hc => by omega
      rw [← hvpn, ← pdx_eq] at hfirst
      rw [← pdx_eq, ← ptx_eq] at hself
      rw [← pdx_eq] at hlow
      rcases find (s := s) (m := s₀.mm) hnp (hdir _) hfirst
        (fun ht => single_lt h.inv (h.table _ hlow ht).1) with ⟨-, hfind⟩ | ⟨ht, hfind⟩
      · rw [← hd] at hfind
        exact ⟨s, changePermFrom_stop hfind⟩
      have hself := hself ht
      obtain ⟨htb, htd, -⟩ := h.table _ hlow ht
      have hlookup := hfind
      rw [← hd] at hfind
      cases hPw : isPresent (s₀.mm.word (pgnum (s₀.mm.word d (pdx (pageAt va i))))
        (ptx (pageAt va i))) with
      | false =>
          rw [changePermFrom_skip hfind (by rw [Vm.pte, hself, hPw])]
          refine ih (i + 1) s hd hnp hdir (fun q hle => htab q (by omega)) hend.succ ?_
          exact hsmall.succ
      | true =>
          obtain ⟨b, hb, -, hstart, -⟩ := h.pte _ hlow ht (ptx (pageAt va i))
            (by rw [ptx_eq]; exact Nat.mod_lt _ (by decide)) hPw
          have hlt := single_lt h.inv hb
          have hmap : Maps (s.mm.word d (pdx (pageAt va i)))
              (pgnum (s₀.mm.word d (pdx (pageAt va i)))) := by
            rw [hdir]
            exact ⟨ht.1, rfl⟩
          have hins := @pageInsert_again s (pageAt va i) perm d _ hmap (by rw [hdir]; exact ht.2)
            (by rw [hnp]; exact single_lt h.inv htb) hP hH
          have hpage : pageLookup s (some d) (pageAt va i) = .ok (some
              (pgnum (s.mm.word (pgnum (s₀.mm.word d (pdx (pageAt va i))))
                (ptx (pageAt va i))))) := by
            unfold pageLookup
            rw [if_neg (fun hc => by cases hc), hlookup]
            change (pa2page s.mm.npages (pteAddr (s.mm.word _ (ptx (pageAt va i)))) >>= fun pp =>
              pure (some pp)) = _
            unfold pa2page
            rw [pgnum_pteAddr, hself, ← hstart, if_neg (by rw [hnp]; exact Nat.not_le.2 hlt)]
            rfl
          rw [← hd] at hpage hins
          rw [changePermFrom_page hfind (by rw [Vm.pte, hself, hPw]) hpage hins]
          refine ih (i + 1) _ hd hnp (fun k => ?_) (fun q hle hq htq => ?_) hend.succ hsmall.succ
          · rw [Vm.word_writePte, if_neg fun hc => htd hc.1.symm]
            exact hdir k
          · rw [Vm.word_writePte, if_neg]
            · exact htab q (by omega) hq htq
            · rintro ⟨hx, hy⟩
              have hx := h.apart _ hq _ hlow htq ht hx
              have hy : q % 1024 = ptx (pageAt va i) := hy
              rw [pdx_eq] at hx
              rw [ptx_eq] at hy
              exact hbehind q hle (by omega)

end FreeReady

/-! ### An environment with two pages -/

/-- The words: the directory is frame 5, its page table frame 7, and the pages are frames 8 and
9. -/
def ownedWord (f i : ℕ) : BitVec 32 :=
  if f = 5 ∧ i = 0 then 0x7007
  else if f = 7 ∧ i = 1 then 0x8007
  else if f = 7 ∧ i = 2 then 0x9007
  else 0

/-- **An environment with two pages**, every one of whose frames has its one reference. -/
def ownedVm (as : List Vma) (allocPages : BitVec 32) : Vm where
  mm := ⟨2048, frames_blocks, false,
    fun i => ⟨none, none, if 5 ≤ i ∧ i ≤ 9 then 1 else 0, if 5 ≤ i ∧ i ≤ 9 ∨
      i = 160 then alloc else 0⟩,
    none, 0, ⟨none, none, none, none, none, none⟩, 0, 0, bytesOf ownedWord⟩
  envs _ := Space.ofAreas (some 5) as allocPages
  kernPgdir _ := 0
  image _ := 0
  envFrame _ := 6
  written := []

/-- The blocks that are out. -/
def ownedLive : List Block := [pageBlock 5, pageBlock 6, pageBlock 7, pageBlock 8, pageBlock 9]

theorem mem_ownedLive {b : Block} : b ∈ ownedLive ↔ ∃ f, 5 ≤ f ∧ f ≤ 9 ∧ b = pageBlock f := by
  constructor
  · intro hb
    simp only [ownedLive, List.mem_cons, List.not_mem_nil, or_false] at hb
    rcases hb with rfl | rfl | rfl | rfl | rfl
    all_goals exact ⟨_, by decide, by decide, rfl⟩
  · rintro ⟨f, hle, hlt, rfl⟩
    have hcases : f = 5 ∨ f = 6 ∨ f = 7 ∨ f = 8 ∨ f = 9 := by omega
    rcases hcases with rfl | rfl | rfl | rfl | rfl
    all_goals simp [ownedLive]

section

variable {as : List Vma} {allocPages : BitVec 32}

theorem ownedVm_word (f i : ℕ) : (ownedVm as allocPages).mm.word f i = ownedWord f i :=
  Mm.word_bytesOf (w := ownedWord) rfl i

/-- The directory has one page table. -/
theorem ownedVm_table {i : ℕ} (h : isPresent ((ownedVm as allocPages).mm.word 5 i) = true) :
    i = 0 := by
  rw [ownedVm_word, ownedWord] at h
  by_contra hc
  rw [if_neg fun hc' => hc hc'.2, if_neg (by omega), if_neg (by omega)] at h
  exact absurd h (by decide)

theorem ownedVm_pde : (ownedVm as allocPages).mm.word 5 0 = 0x7007 := ownedVm_word 5 0

/-- The page table has two entries. -/
theorem ownedVm_page {j : ℕ} (h : isPresent ((ownedVm as allocPages).mm.word 7 j) = true) :
    j = 1 ∨ j = 2 := by
  rw [ownedVm_word, ownedWord] at h
  by_contra hc
  rw [if_neg (by omega), if_neg (by omega), if_neg (by omega)] at h
  exact absurd h (by decide)

theorem ownedVm_inv : AllocInv (ownedVm as allocPages).mm ownedLive [] where
  chain := rfl
  listed _ hi := (List.not_mem_nil hi).elim
  aligned b hb hh := by
    obtain ⟨f, -, -, rfl⟩ := mem_ownedLive.1 hb
    exact absurd hh Bool.false_ne_true
  low b hb := by
    obtain ⟨f, hle, -, rfl⟩ := mem_ownedLive.1 hb
    exact Nat.le_trans (by decide) hle
  bound b hb := by
    obtain ⟨f, -, hle, rfl⟩ := mem_ownedLive.1 hb
    change f + 1 ≤ 2048
    omega
  held b hb i hi := by
    obtain ⟨f, hle, hle', rfl⟩ := mem_ownedLive.1 hb
    obtain rfl := pageBlock_has.1 hi
    refine ⟨?_, rfl⟩
    change (if 5 ≤ i ∧ i ≤ 9 ∨ i = 160 then alloc else 0) = _
    rw [if_pos (Or.inl ⟨hle, hle'⟩), Block.flags, if_neg fun hc => Bool.false_ne_true hc.1]
    change alloc = alloc ||| 0 ||| if false = true then poisonAfterFree else 0
    decide
  apart := by
    simp only [ownedLive, List.pairwise_cons, List.mem_cons, List.not_mem_nil, or_false,
      forall_eq_or_imp, forall_eq, pageBlock_has, IsEmpty.forall_iff, implies_true, and_true,
      List.Pairwise.nil]
    omega
  rest i _ _ := by
    refine ⟨rfl, ?_⟩
    change (if 5 ≤ i ∧ i ≤ 9 ∨ i = 160 then alloc else 0) = 0 ∨
      (if 5 ≤ i ∧ i ≤ 9 ∨ i = 160 then alloc else 0) = alloc
    split
    · exact Or.inr rfl
    · exact Or.inl rfl
  hole := by
    refine ⟨rfl, fun b hb => ?_⟩
    obtain ⟨f, -, hle, rfl⟩ := mem_ownedLive.1 hb
    rw [pageBlock_has]
    omega

/-- The references of the environment. -/
theorem ownedVm_uses (g : ℕ) : (ownedVm as allocPages).mm.uses 5 g ≤
    ((ownedVm as allocPages).ref g).toNat := by
  have hlt : 0 ∈ Finset.range (pdx uTop) := Finset.mem_range.2 (by decide)
  have hpg : pgnum (0x7007 : BitVec 32) = 7 := by decide
  have hpage : ∀ j, Maps ((ownedVm as allocPages).mm.word 7 j) g → j = 1 ∧ g = 8 ∨
    j = 2 ∧ g = 9 := by
    rintro j ⟨hP, hg⟩
    rcases ownedVm_page hP with rfl | rfl
    · exact Or.inl ⟨rfl, hg.symm.trans (by rw [ownedVm_word]; decide)⟩
    · exact Or.inr ⟨rfl, hg.symm.trans (by rw [ownedVm_word]; decide)⟩
  have hcard : ((Finset.range 1024).filter
      fun j => Maps ((ownedVm as allocPages).mm.word 7 j) g).card ≤
      if g = 8 ∨ g = 9 then 1 else 0 := by
    refine Nat.le_trans (Finset.card_le_card (t := if g = 8 then {1} else if g = 9 then {2} else ∅)
      fun j hj => ?_) ?_
    · rcases hpage j (Finset.mem_filter.1 hj).2 with ⟨rfl, rfl⟩ | ⟨rfl, rfl⟩
      · exact Finset.mem_singleton_self 1
      · exact Finset.mem_singleton_self 2
    · by_cases h8 : g = 8
      · simp [h8]
      · by_cases h9 : g = 9
        · simp [h9]
        · simp [h8, h9]
  have href : ((ownedVm as allocPages).ref g).toNat = if 5 ≤ g ∧ g ≤ 9 then 1 else 0 := by
    change (if 5 ≤ g ∧ g ≤ 9 then (1 : BitVec 16) else 0).toNat = _
    split <;> rfl
  rw [Mm.uses, Finset.sum_eq_single_of_mem 0 hlt fun i _ hi => slotUses_absent ?_, href]
  · rw [slotUses_table ⟨by rw [ownedVm_pde]; decide, by rw [ownedVm_pde]; decide⟩, ownedVm_pde, hpg]
    split at hcard <;> split_ifs <;> omega
  · by_contra hc
    exact hi (ownedVm_table (by simpa using hc))

/-- The references of the environment are counted. -/
theorem ownedVm_ready : FreeReady (ownedVm as allocPages) 0 5 ownedLive [] where
  inv := ownedVm_inv
  steady := ⟨rfl, by simp [drift, ownedVm], fun _ =>
    [], by intro q; cases q <;> rfl, by simp, by simp⟩
  small := by
    change 2048 ≤ 65536
    decide
  dir := rfl
  root := mem_ownedLive.2 ⟨5, by decide, by decide, rfl⟩
  slot := mem_ownedLive.2 ⟨6, by decide, by decide, rfl⟩
  slotDir := by
    change 6 ≠ 5
    decide
  table i _ ht := by
    obtain rfl := ownedVm_table ht.1
    rw [ownedVm_pde]
    exact ⟨mem_ownedLive.2 ⟨7, by decide, by decide, rfl⟩, by decide, by change _ ≠ 6; decide⟩
  apart i _ j _ hi hj _ := by rw [ownedVm_table hi.1, ownedVm_table hj.1]
  pte i _ ht j _ hP := by
    have hpg : pgnum (0x7007 : BitVec 32) = 7 := by decide
    obtain rfl := ownedVm_table ht.1
    rw [ownedVm_pde, hpg] at hP
    have hpage : ∃ f, 8 ≤ f ∧ f ≤ 9 ∧ f = pgnum ((ownedVm as allocPages).mm.word 7 j) := by
      rcases ownedVm_page hP with rfl | rfl
      · exact ⟨8, by decide, by decide, by rw [ownedVm_word]; decide⟩
      · exact ⟨9, by decide, by decide, by rw [ownedVm_word]; decide⟩
    obtain ⟨f, hle, hle', hf⟩ := hpage
    rw [ownedVm_pde, hpg, ← hf]
    refine ⟨pageBlock f, mem_ownedLive.2 ⟨f, by omega, hle', rfl⟩, rfl, rfl, ?_, ?_, fun k _ hk =>
      ?_⟩
    · intro hc
      have hc : f = 5 := hc
      omega
    · intro hc
      have hc : f = 6 := hc
      omega
    · obtain rfl := ownedVm_table hk.1
      rw [ownedVm_pde, hpg]
      intro hc
      have hc : f = 7 := hc
      omega
  big i _ hP hH := by
    obtain rfl := ownedVm_table hP
    rw [ownedVm_pde] at hH
    exact absurd hH (by decide)
  counted := ownedVm_uses

end

end Jos
