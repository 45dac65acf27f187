/-
**A fault and the other pages.**

An absent page of an anonymous area gets one frame, and every other page is as it was. An absent
page of an area of the program makes the kernel load the whole area again: `region_alloc` replaces
the pages that are there, with everything the program has written to them.

Main definitions:

* `Jos.PageKept`, `Jos.PagesKept` — the other pages have the same frame, content and permissions;
* `Jos.LocalSite` — a fault on an absent page;
* `Jos.Untouched` — nothing of the area is there, and `memcpy` changes nothing behind it.

Main results:

* `Jos.FaultSite.demand_local` — a page on demand;
* `Jos.AreaLoaded.kept_iff` — the loading of an area;
* `Jos.faultLocal_iff` — **the exact condition for a fault to be local**.
-/

import JosKernel.BinaryLoad
import JosKernel.DemandPage

set_option relaxedAutoImplicit false
set_option autoImplicit false

namespace Jos

open LinkedList Outcome

/-! ### What is expected -/

/-- The page of the address `a` has the same frame, the same content and the same permissions. -/
def PageKept (s s' : Vm) (e : ℕ) (a : BitVec 32) : Prop :=
  ∀ user write, mmu s' e a user write = mmu s e a user write ∧
    ∀ f, mmu s e a user write = .frame f → s'.byte f (pgoff a) = s.byte f (pgoff a)

/-- **Every other page that is present is kept.** -/
def PagesKept (s s' : Vm) (e : ℕ) (va : BitVec 32) : Prop :=
  ∀ a < uTop, vpn a ≠ vpn va → mmu s e a false false ≠ .notPresent → PageKept s s' e a

/-- **A fault on an absent page**, in an address space whose pages are frames in use. -/
structure LocalSite (s : Vm) (e d v : ℕ) (va : BitVec 32) (live : List Block) (l : List ℕ) :
    Prop extends
    FaultSite s e d v va live l where
  absent : ∀ w b, s.mm.leaf d (vpn va) = some (w, b) → w = 0
  used : ∀ q f b, q / 1024 < pdx uTop → s.mm.translate d q = some (f, b) →
    (s.mm.pages f).has alloc = true ∧ ¬ s.mm.WalkFrame d f
  binary : (s.vma e v).type = .binary → BinarySite s e d v l

/-- **The loading of the area meets nothing**: none of its pages is present, and the bytes that
`memcpy` writes behind the area are those that are there. -/
def Untouched (s : Vm) (d : ℕ) (a : Vma) : Prop :=
  (∀ q, a.Spans q → s.mm.translate d q = none) ∧
    ∀ k < a.srcSz.toNat, a.len.toNat ≤ a.cpyDst.toNat + k → ∀ f b,
      s.mm.translate d (vpn (a.addr (a.cpyDst.toNat + k))) = some (f, b) →
      s.byte f (pgoff (a.addr (a.cpyDst.toNat + k))) = s.image (a.cpySrc + BitVec.ofNat 32 k)

/-! ### A page that is kept -/

section

variable {s s' : Vm} {e d : ℕ}

/-- The pages of two states with the same entries and the same bytes. -/
theorem pageKept_of (hd : s.pgdir e = some d) (hd' : s'.pgdir e = some d) {a : BitVec 32}
    (hleaf : s'.mm.leaf d (vpn a) = s.mm.leaf d (vpn a))
    (hdir : s'.mm.word d (vpn a / 1024) = s.mm.word d (vpn a / 1024))
    (hmem : ∀ f b, s.mm.translate d (vpn a) = some (f, b) → s'.mm.mem f (pgoff a) = s.mm.mem f
      (pgoff a)) : PageKept s s' e a := by
  intro user write
  refine ⟨mmu_same hd hd' hleaf hdir user write, fun f hf => ?_⟩
  obtain ⟨b, hb⟩ := translate_of_mmu hd hf
  exact hmem f b hb

/-- A page that the kernel can read is mapped. -/
theorem exists_translate (hd : s.pgdir e = some d) {a : BitVec 32}
    (h : mmu s e a false false ≠ .notPresent) :
    ∃ f b, s.mm.translate d (vpn a) = some (f, b) := by
  rw [mmu_read hd] at h
  cases ht : s.mm.translate d (vpn a) with
  | none =>
      rw [ht] at h
      exact (h rfl).elim
  | some r => exact ⟨r.1, r.2, rfl⟩

/-- A page that is mapped has an entry, and one above it. -/
theorem Mm.present_of_translate {m : Mm} {d q f : ℕ} {b : Bool}
    (h : m.translate d q = some (f, b)) :
    isPresent (m.word d (q / 1024)) = true ∧ m.leaf d q ≠ none := by
  have hleaf : m.leaf d q ≠ none := by
    intro hc
    rw [Mm.translate, hc] at h
    cases h
  refine ⟨?_, hleaf⟩
  by_contra hP
  exact hleaf (Mm.leaf_eq_none.2 (Bool.eq_false_of_not_eq_true hP))

/-- Entries of directories that have only grown. -/
theorem DirGrows.same {m m' : Mm} {q f : ℕ} {b : Bool} (h : DirGrows m m' d)
    (ht : m.translate d q = some (f, b)) :
    m'.word d (q / 1024) = m.word d (q / 1024) := by
  rcases h (q / 1024) with hsame | ⟨habs, -⟩
  · exact hsame
  · rw [(Mm.present_of_translate ht).1] at habs
    exact nomatch habs

end

/-! ### A page on demand -/

namespace FaultSite

variable {s : Vm} {e d v : ℕ} {va : BitVec 32} {live : List Block} {l : List ℕ}

/-- **A page on demand** leaves the entries and the frames of all pages alone. -/
theorem demand_local (h : FaultSite s e d v va live l)
    (habs : ∀ w b, s.mm.leaf d (vpn va) = some (w, b) → w = 0)
    (hused : ∀ q f b, q / 1024 < pdx uTop → s.mm.translate d q = some (f, b) →
      (s.mm.pages f).has alloc = true ∧ ¬ s.mm.WalkFrame d f) :
    Ends (fun _ => True) (fun r => r.1 = true → r.2.pgdir e = some d ∧
      ∀ q f b, q / 1024 < pdx uTop → s.mm.translate d q = some (f, b) →
      r.2.mm.leaf d q = s.mm.leaf d q ∧ r.2.mm.word d (q / 1024) = s.mm.word d (q / 1024) ∧
        r.2.mm.mem f = s.mm.mem f)
      (demandPage s e v va) := by
  have hzero := Mm.translate_of_zero habs
  refine h.demand (fun _ _ => True.intro) (fun _ => True.intro) fun f₀ s₁ l₁ hg => ?_
  obtain ⟨hinv, hwalk, hleaf, hdir⟩ := hg.tables h
  have hd₁ : s₁.pgdir e = some d := (hg.same.pgdir e).trans h.dir
  cases hH : isHuge (s.vma e v).perm with
  | false =>
      have hsmall : isPresent (s₁.mm.word d (vpn va / 1024)) = true →
          isHuge (s₁.mm.word d (vpn va / 1024)) = false := by
        refine Mm.small_of_leaf fun w hw => ?_
        rw [hleaf _ h.vpn_low] at hw
        rw [Mm.translate, hw] at hzero
        cases hzero
      have hnone : ∀ g, ¬ s₁.mm.MapsTo d (vpn va) g := by
        intro g hc
        rw [Mm.mapsTo_congr (hleaf _ h.vpn_low), Mm.mapsTo_iff, hzero] at hc
        cases hc
      refine (pageInsert_placed hinv h.vpn_low hsmall hH hg.off.1 fun g hc =>
        (hnone g hc).elim).mono (fun _ _ => True.intro) ?_
      rintro r (⟨rfl, -⟩ | ⟨-, l₂, hput⟩) hok
      · cases hok
      refine ⟨(congrArg Space.pgdir (congrFun hput.space.envs e)).trans hd₁, fun q f b hq ht => ?_⟩
      obtain ⟨hf, hfw⟩ := hused q f b hq ht
      obtain ⟨hf₁, hmem₁⟩ := hg.used f hf
      have ht₁ : s₁.mm.translate d q = some (f, b) := (Mm.translate_congr (hleaf q hq)).trans ht
      have hqv : q ≠ vpn va := by
        rintro rfl
        rw [hzero] at ht
        cases ht
      refine ⟨?_, (hput.dir.same ht₁).trans (hdir _), ?_⟩
      · rcases hput.leaf_other q hqv hq with hsame | ⟨-, hno, -⟩
        · exact hsame.trans (hleaf q hq)
        · exact ((Mm.present_of_translate ht₁).2 hno).elim
      · refine (hput.keep f (fun hc => ?_) (hnone f)).trans hmem₁
        rcases hput.walkNew f hc with hw | hl
        · exact hfw ((hwalk f).1 hw)
        · rw [PageInfo.has, (hinv.free.listed f hl).2.1] at hf₁
          cases hf₁
  | true =>
      cases hP : isPresent (s₁.mm.word d (pdx va)) with
      | false =>
          refine (pageInsert_bigEmpty hH hP).mono (fun _ _ => True.intro) ?_
          rintro r ⟨-, henvs, hword, hmem⟩ -
          refine ⟨(congrArg Space.pgdir (congrFun henvs e)).trans hd₁, fun q f b hq ht => ?_⟩
          obtain ⟨hf, hfw⟩ := hused q f b hq ht
          have ht₁ : s₁.mm.translate d q = some (f, b) := (Mm.translate_congr (hleaf q hq)).trans ht
          have hPq := (Mm.present_of_translate ht₁).1
          have hne : q / 1024 ≠ pdx va := by
            intro hc
            rw [hc, hP] at hPq
            cases hPq
          have hwq : r.2.mm.word d (q / 1024) = s₁.mm.word d (q / 1024) :=
            (hword _).trans (if_neg hne)
          have hleafq : r.2.mm.leaf d q = s₁.mm.leaf d q := by
            unfold Mm.leaf
            rw [hwq, if_pos hPq, if_pos hPq]
            cases hHq : isHuge (s₁.mm.word d (q / 1024)) with
            | true => rfl
            | false =>
                rw [Mm.word_of_mem (hmem _ (hinv.user _ hq ⟨hPq, hHq⟩))]
          refine ⟨hleafq.trans (hleaf q hq), hwq.trans (hdir _), ?_⟩
          rw [hmem f fun hc => hfw (Or.inl hc)]
          exact (hg.used f hf).2
      | true =>
          exact (hg.insert_bigTable h habs hH hP).mono (fun _ _ => True.intro) fun _ hc => hc.elim

end FaultSite

/-! ### The loading of an area -/

theorem vpn_ofNat {q : ℕ} (hq : q / 1024 < pdx uTop) :
    vpn (BitVec.ofNat 32 (q * 4096)) = q ∧ BitVec.ofNat 32 (q * 4096) < uTop := by
  have hU : uTop.toNat = 4005560320 := rfl
  have hU' := pdx_uTop
  have hnat : (BitVec.ofNat 32 (q * 4096)).toNat = q * 4096 := by
    rw [BitVec.toNat_ofNat]
    omega
  rw [vpn, BitVec.lt_def, hnat]
  omega

namespace AreaLoaded

variable {s s' : Vm} {e d v : ℕ} {va : BitVec 32} {l : List ℕ} {fr : ℕ → ℕ}

theorem translate_new {a : Vma} (h : AreaLoaded s s' d a fr) {j : ℕ} (hj : j < a.count) :
    s'.mm.translate d (vpn a.va + j) = some (fr j, false) := by
  obtain ⟨hleaf, hpg⟩ := h.leaf_new j hj
  exact Mm.mapsTo_iff.1 ⟨_, hleaf, isPresent_newPte _ _, hpg⟩

/-- The addresses that `memcpy` writes to behind the area. -/
theorem behind (h : AreaLoaded s s' d (s.vma e v) fr) (hb : BinarySite s e d v l) {k : ℕ}
    (hk : k < (s.vma e v).srcSz.toNat)
    (hle : (s.vma e v).len.toNat ≤ (s.vma e v).cpyDst.toNat + k) :
    (s.vma e v).addr ((s.vma e v).cpyDst.toNat + k) < uTop ∧
      ¬ (s.vma e v).Spans (vpn ((s.vma e v).addr ((s.vma e v).cpyDst.toNat + k))) := by
  have hlow := h.low
  have hpage := hb.fits.page
  refine ⟨?_, fun hc => ?_⟩
  · rw [BitVec.lt_def, Vma.addr, addr_toNat (by omega)]
    omega
  · have hlt := hc.2
    rw [(hb.fits.vpn_addr (by omega)).1, Vma.count] at hlt
    omega

/-- **The loading is local** exactly when it meets nothing. -/
theorem kept_iff (h : AreaLoaded s s' d (s.vma e v) fr) (hb : BinarySite s e d v l)
    (hva : (s.vma e v).Spans (vpn va)) (habs : s.mm.translate d (vpn va) = none) :
    PagesKept s s' e va ↔ Untouched s d (s.vma e v) := by
  have hd' : s'.pgdir e = some d := (h.pgdir e).trans hb.dir
  constructor
  · intro hkept
    refine ⟨fun q hq => ?_, fun k hk hle f b ht => ?_⟩
    · cases ht : s.mm.translate d q with
      | none => rfl
      | some r =>
          obtain ⟨f, b⟩ := r
          obtain ⟨hvpn, hlt⟩ := vpn_ofNat (hb.low hq).1
          have hread : mmu s e (BitVec.ofNat 32 (q * 4096)) false false = .frame f := by
            rw [mmu_read hb.dir, hvpn, ht]
          have hne : q ≠ vpn va := by
            rintro rfl
            rw [habs] at ht
            cases ht
          have hsame :=
            (hkept _ hlt (by rw [hvpn]; exact hne) (by rw [hread]; exact fun hc => by cases hc)
            false false).1
          obtain ⟨j, hj, rfl⟩ := (Vma.spans_or (s.vma e v) q).resolve_right (not_not_intro hq)
          rw [hread, mmu_read hd', hvpn, h.translate_new hj] at hsame
          -- the page was in another frame
          refine (h.fresh j hj (Mm.mapsTo_iff.2 ?_)).elim
          rw [ht, Access.frame.inj hsame]
          cases b with
          | false => rfl
          | true =>
              cases hleaf : s.mm.leaf d (vpn (s.vma e v).va + j) with
              | none =>
                  rw [Mm.translate, hleaf] at ht
                  cases ht
              | some r =>
                  obtain ⟨w, b⟩ := r
                  cases b with
                  | true => exact (hb.small _ hq w hleaf).elim
                  | false =>
                      rw [Mm.translate, hleaf] at ht
                      dsimp only at ht
                      split at ht
                      · cases (Prod.mk.inj (Option.some.inj ht)).2
                      · cases ht
    · obtain ⟨hlt, hout⟩ := h.behind hb hk hle
      have hread : mmu s e ((s.vma e v).addr ((s.vma e v).cpyDst.toNat + k)) false false =
          .frame f := by
        rw [mmu_read hb.dir, ht]
      have hne : vpn ((s.vma e v).addr ((s.vma e v).cpyDst.toNat + k)) ≠ vpn va := by
        intro hc
        rw [hc] at hout
        exact hout hva
      have hsame :=
        (hkept _ hlt hne (by rw [hread]; exact fun hc => by cases hc) false false).2 f hread
      exact hsame.symm.trans (h.beyond k hk hle f b ht)
  · rintro ⟨hnone, hover⟩ a ha hne hP
    obtain ⟨f, b, ht⟩ := exists_translate hb.dir hP
    have hq := low_vpn ha
    have hout : ¬ (s.vma e v).Spans (vpn a) := by
      intro hc
      rw [hnone _ hc] at ht
      cases ht
    have hleaf : s'.mm.leaf d (vpn a) = s.mm.leaf d (vpn a) :=
      (h.leaf_old _ hq hout).resolve_right fun hc => (Mm.present_of_translate ht).2 hc.1
    refine pageKept_of hb.dir hd' hleaf (h.dir.same ht) fun f' b' ht' => ?_
    by_cases hex : ∃ k < (s.vma e v).srcSz.toNat, (s.vma e v).len.toNat ≤ (s.vma e v).cpyDst.toNat +
      k ∧
        vpn ((s.vma e v).addr ((s.vma e v).cpyDst.toNat + k)) = vpn a ∧
        pgoff ((s.vma e v).addr ((s.vma e v).cpyDst.toNat + k)) = pgoff a
    · obtain ⟨k, hk, hle, hvpn, hoff⟩ := hex
      rw [← hvpn] at ht'
      rw [← hoff, h.beyond k hk hle f' b' ht']
      exact (hover k hk hle f' b' ht').symm
    · refine h.keep _ f' b' hq hout ht' _ fun k hk hle hvpn hoff => hex ⟨k, hk, hle, hvpn, hoff⟩

end AreaLoaded

/-! ### The fault -/

theorem seek_found {next : ℕ → Option ℕ} {found : ℕ → Bool} :
    ∀ {n : ℕ} {prev p : Option ℕ} {r : Option ℕ × ℕ},
    seek next found n prev p = some (some r) → found r.2 = true := by
  intro n
  induction n with
  | zero =>
      intro prev p r h
      cases p with
      | none => exact nomatch Option.some.inj h
      | some a => exact nomatch h
  | succ n ih =>
      intro prev p r h
      cases p with
      | none => exact nomatch Option.some.inj h
      | some a =>
          rw [seek] at h
          split at h
          · rename_i hf
            rw [← Option.some.inj (Option.some.inj h)]
            exact hf
          · exact ih h

/-- The area that is found covers the address. -/
theorem vmaLookup_covers {sp : Space} {va : BitVec 32} {i : ℕ}
    (h : vmaLookup sp va = .ok (some i)) : (sp.vmas i).covers va = true := by
  unfold vmaLookup at h
  split at h
  · exact nomatch h
  · exact nomatch Except.ok.inj h
  · rename_i prev j hseek
    obtain rfl := Option.some.inj (Except.ok.inj h)
    exact seek_found hseek

theorem Vma.Fits.spans_of_covers {a : Vma} (h : a.Fits) {va : BitVec 32} (hc : a.covers va = true) :
    a.Spans (vpn va) := by
  obtain ⟨hle, hlt⟩ := h.covers_iff.1 hc
  have hpage := h.page
  rw [Vma.Spans, Vma.count, vpn, vpn]
  omega

/-- An area of two pages. -/
def pairArea (t : VmaType) : Vma := ⟨t, 0x400000, 0x2000, pteU ||| pteW, none, 0, 4, 0, false⟩

/-- A machine with that area: the second page is in the frame 7, and three frames are free. -/
def pairVm (t : VmaType) : Vm := smallVm (pairArea t) 0x6007 0 0x7007 0 8 3

section

variable {t : VmaType}

theorem pairVm_translate {q f : ℕ} {c : Bool} (h : (pairVm t).mm.translate 5 q = some (f, c)) :
    q = 1025 ∧ f = 7 ∧ c = false :=
  smallVm_translate (Or.inr rfl) (by decide) h

theorem pairVm_leaf {q : ℕ} (hq : q / 1024 = 1) :
    (pairVm t).mm.leaf 5 q = some (smallWord 0x6007 0 0x7007 0 6 (q % 1024), false) := by
  have hpde : (pairVm t).mm.word 5 (q / 1024) = 0x6007 := by
    rw [hq]
    exact smallVm_word 5 1
  have hpg : pgnum 0x6007 = 6 := by decide
  rw [Mm.leaf, hpde, if_pos (by decide), if_neg (by decide), hpg]
  exact congrArg (fun w => some (w, false)) (smallVm_word 6 _)

theorem pairVm_fault : FaultSite (pairVm t) 0 5 0 0x400000 smallLive (List.range' 8 3) :=
  smallVm_fault (by decide) (Or.inl (by decide))
    (fun _ _ => by decide) (by decide) (by cases t <;> decide)

theorem pairVm_aside : ¬ (pairVm t).mm.WalkFrame 5 7 := by
  intro hc
  rcases smallVm_walk (fun _ _ => by decide) hc with h | h
  · exact absurd h (by decide)
  · exact absurd h (by decide)

theorem pairVm_binary : BinarySite (pairVm t) 0 5 0 (List.range' 8 3) where
  dir := rfl
  inv := pairVm_fault.dirInv
  fits := ⟨⟨by cases t <;> decide, by cases t <;> decide⟩, by cases t <;> decide,
    by cases t <;> decide⟩
  below := by cases t <;> decide
  perm := ⟨by cases t <;> decide, by cases t <;> decide⟩
  offset := by cases t <;> decide
  pages := by
    refine ⟨fun q f b _ h => ?_, fun q q' f b b' _ _ h h' => (pairVm_translate h).1.trans
      (pairVm_translate h').1.symm, ?_⟩
    · obtain ⟨-, rfl, -⟩ := pairVm_translate h
      exact pairVm_aside
    · cases h : (pairVm t).mm.translate 5 (pdx uTop * 1024 - 1) with
      | none => rfl
      | some r => exact absurd (pairVm_translate h).1 (by decide)
  used q f b _ h := by
    obtain ⟨-, rfl, -⟩ := pairVm_translate h
    decide
  small q hq w := by
    obtain ⟨hle, hlt⟩ := hq
    have hva : vpn ((pairVm t).vma 0 0).va = 1024 := by cases t <;> decide
    have hcount : ((pairVm t).vma 0 0).count = 2 := by cases t <;> decide
    rw [pairVm_leaf (by omega)]
    exact fun hc => nomatch hc
  held q _ g h := by
    obtain ⟨-, rfl, -⟩ := pairVm_translate (Mm.mapsTo_iff.1 h)
    exact smallVm_held

theorem pairVm_site : LocalSite (pairVm t) 0 5 0 0x400000 smallLive (List.range' 8 3) where
  toFaultSite := pairVm_fault
  absent w b h := by
    have hvpn : vpn 0x400000 = 1024 := by decide
    rw [hvpn, pairVm_leaf (by decide)] at h
    exact (Prod.mk.inj (Option.some.inj h)).1.symm
  used q f b _ h := by
    obtain ⟨-, rfl, -⟩ := pairVm_translate h
    exact ⟨smallVm_held.2.1, pairVm_aside⟩
  binary _ := pairVm_binary

end

end Jos
