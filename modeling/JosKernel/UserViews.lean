/-
**What an environment finds at its addresses.**

A page that is present has its bytes, and one that is absent has those that demand paging will give
it: the bytes of the program, or zeros. Together they are the memory of an environment, whether its
pages are its own, shared since a fork, or not there yet.

Main definitions:

* `Jos.Vm.areaAt` — the area that `vma_lookup` finds;
* `Jos.Vm.seen` — what an environment finds at an address;
* `Jos.Vm.Readable` — it may read there;
* `Jos.CowInv` — **the invariant of copy on write**;
* `Jos.Coherent` — the environments find what a given memory of each of them has.

Main results:

* `Jos.Areas.areaAt_iff` — the area at an address is one in use that covers it;
* `Jos.seen_congr` — pages that look the same;
* `Jos.Coherent.served` — work on some pages of one environment;
* `Jos.Coherent.freed` — an environment is destroyed.
-/

import JosKernel.SpaceFault

set_option relaxedAutoImplicit false
set_option autoImplicit false

namespace Jos

open LinkedList Outcome

/-! ### The area at an address -/

/-- **The area that `vma_lookup` finds**, without its link. -/
def Vm.areaAt (s : Vm) (e : ℕ) (va : BitVec 32) : Option Vma :=
  match vmaLookup (s.envs e) va with
  | .ok (some i) => some (s.vma e i).body
  | _ => none

/-- The pages of an area. -/
theorem AreaOk.covers_iff_hasPage {v : Vma} (h : AreaOk v) {va : BitVec 32} :
    v.covers va = true ↔ v.HasPage (vpn va) := by
  have hpage := h.page
  rw [h.covers_iff, h.hasPage_iff, vpn]
  omega

/-- Areas without a common address do not cover the same one. -/
theorem Vma.Apart.not_covers {v w : Vma} (h : v.Apart w) (hv : AreaOk v) (hw : AreaOk w)
    {va : BitVec 32} (hc : v.covers va = true) : ¬ w.covers va = true := by
  rw [hw.covers_iff_hasPage]
  exact h.not_hasPage hv hw (hv.covers_iff_hasPage.1 hc)

section AreaAt

variable {s s' : Vm} {e e' : ℕ} {la lf : List ℕ} {va : BitVec 32} {v : Vma}

theorem Areas.areaAt_iff (h : Areas (s.envs e) la lf) :
    s.areaAt e va = some v ↔ (s.envs e).Uses la v ∧ v.covers va = true := by
  have hother : ∀ i ∈ la, ∀ j ∈ la, (s.vma e i).covers va = true → (s.vma e j).covers va = true →
      i = j := by
    intro i hi j hj hci hcj
    by_contra hne
    have : Std.Symm fun i j => ((s.envs e).vmas i).Apart ((s.envs e).vmas j) :=
      ⟨fun _ _ hxy => hxy.symm⟩
    have hap := h.apart.forall hi hj hne
    exact hap.not_covers (h.ok i) (h.ok j) hci hcj
  obtain ⟨r, hr, hcase⟩ := (h.vmaLookup va).exists_ok fun _ hf => hf
  unfold Vm.areaAt
  rw [hr]
  rcases hcase with ⟨rfl, hnone⟩ | ⟨i, hi, rfl, hcov⟩
  · constructor
    · exact fun hc => absurd hc (by simp)
    · rintro ⟨⟨j, hj, rfl⟩, hcj⟩
      exact absurd hcj (Bool.eq_false_iff.1 (hnone j hj))
  · constructor
    · intro heq
      obtain rfl := Option.some.inj heq
      exact ⟨⟨i, hi, rfl⟩, hcov⟩
    · rintro ⟨⟨j, hj, rfl⟩, hcj⟩
      rw [hother i hi j hj hcov hcj]
      rfl

theorem Areas.areaAt_of_mem (h : Areas (s.envs e) la lf) {i : ℕ} (hi : i ∈ la)
    (hc : (s.vma e i).covers va = true) :
    s.areaAt e va = some (s.vma e i).body :=
  h.areaAt_iff.2 ⟨⟨i, hi, rfl⟩, hc⟩

/-- The areas are as before. -/
theorem areaAt_congr (h : (s'.envs e').lists = (s.envs e).lists) :
    s'.areaAt e' va = s.areaAt e va := by
  have hv : (s'.envs e').vmas = (s.envs e).vmas := congrArg Prod.fst h
  have ha : (s'.envs e').allocVmaList = (s.envs e).allocVmaList := congrArg (fun x => x.2.1) h
  unfold Vm.areaAt vmaLookup Space.link Vm.vma
  rw [hv, ha]

end AreaAt

/-! ### Bytes -/

/-- The byte that a page of the area is made with: one of the program, or 0. -/
def Vma.freshByte (v : Vma) (image : BitVec 32 → BitVec 8) (va : BitVec 32) : BitVec 8 :=
  if v.type = .binary ∧ (va - v.va).toNat < v.srcSz.toNat then image (v.cpySrc + (va - v.va)) else 0

/-- The byte of the page that is mapped at an address. -/
def Vm.cellAt (s : Vm) (e : ℕ) (va : BitVec 32) : Option (BitVec 8) :=
  (s.pgdir e).bind fun d => s.mm.cell d (vpn va) (pgoff va)

/-- **What an environment finds at an address.** -/
def Vm.seen (s : Vm) (e : ℕ) (va : BitVec 32) : BitVec 8 :=
  match s.cellAt e va, s.areaAt e va with
  | some b, _ => b
  | none, some v => v.freshByte s.image va
  | none, none => 0

/-- The page at the address is present, and the environment may use it. -/
def Mm.UserPage (m : Mm) (d q : ℕ) : Prop :=
  isPresent (m.entry d q) = true ∧ isUser (m.entry d q) = true

/-- **The environment may read at the address**: as its entry says, or, once the page is there, as
its area says. -/
def Vm.Readable (s : Vm) (e : ℕ) (va : BitVec 32) : Prop :=
  (∃ d, s.pgdir e = some d ∧ s.mm.UserPage d (vpn va)) ∨ ∃ v, s.areaAt e va = some v ∧
    isUser v.perm = true

section Seen

variable {s s' : Vm} {e e' d d' : ℕ} {va : BitVec 32} {v : Vma} {b : BitVec 8}

theorem cellAt_of_dir (hdir : s.pgdir e = some d) :
    s.cellAt e va = s.mm.cell d (vpn va) (pgoff va) := by
  rw [Vm.cellAt, hdir]
  rfl

theorem seen_of_cell (hdir : s.pgdir e = some d) (h : s.mm.cell d (vpn va) (pgoff va) = some b) :
    s.seen e va = b := by
  rw [← cellAt_of_dir hdir] at h
  unfold Vm.seen
  rw [h]

theorem seen_of_absent (hdir : s.pgdir e = some d) (h : isPresent (s.mm.entry d (vpn va)) = false)
    (ha : s.areaAt e va = some v) :
    s.seen e va = v.freshByte s.image va := by
  have hcell : s.cellAt e va = none := by
    rw [cellAt_of_dir hdir, Mm.cell, h]
    rfl
  unfold Vm.seen
  rw [hcell, ha]

theorem readable_iff (hdir : s.pgdir e = some d) :
    s.Readable e va ↔ s.mm.UserPage d (vpn va) ∨ ∃ v, s.areaAt e va = some v ∧
      isUser v.perm = true := by
  refine or_congr_left ⟨?_, fun h => ⟨d, hdir, h⟩⟩
  rintro ⟨d', hd', h⟩
  obtain rfl : d' = d := Option.some.inj (hd'.symm.trans hdir)
  exact h

/-- **Two pages look the same to user programs**, but for the permission to write. -/
structure PageAlike (m m' : Mm) (d d' q : ℕ) : Prop where
  present : isPresent (m'.entry d' q) = isPresent (m.entry d q)
  user : isUser (m'.entry d' q) = isUser (m.entry d q)
  cell : ∀ o, m'.cell d' q o = m.cell d q o

theorem PageAlike.userPage {m m' : Mm} {q : ℕ} (h : PageAlike m m' d d' q) :
    m'.UserPage d' q ↔ m.UserPage d q := by
  rw [Mm.UserPage, Mm.UserPage, h.present, h.user]

/-- **Pages that look the same, in areas that are the same.** -/
theorem seen_congr (hdir : s.pgdir e = some d) (hdir' : s'.pgdir e' = some d')
    (hview : PageAlike s.mm s'.mm d d' (vpn va)) (harea : s'.areaAt e' va = s.areaAt e va)
    (himage : s'.image = s.image) :
    s'.seen e' va = s.seen e va ∧ (s'.Readable e' va ↔ s.Readable e va) := by
  constructor
  · rw [Vm.seen, Vm.seen, cellAt_of_dir hdir, cellAt_of_dir hdir', hview.cell, harea, himage]
  · rw [readable_iff hdir, readable_iff hdir', hview.userPage, harea]

/-- Pages that are left alone look the same. -/
theorem Aside.pageAlike {D : Finset ℕ} {P : ℕ → Prop} {q : ℕ} (h : Aside s s' D d P) (hd : d' ∈ D)
    (hq : q / 1024 < pdx uTop) (hn : ¬ (d' = d ∧ P q)) : PageAlike s.mm s'.mm d' d' q := by
  have hentry := h.entry d' hd q hq hn
  exact ⟨congrArg isPresent hentry, congrArg isUser hentry, h.cell hd hq hn⟩

end Seen

/-! ### The invariant -/

/-- An area is copied by fork, and where it is a part of the program it is loaded from its first
byte on, and all of its pages at once. -/
structure Vma.Loads (v : Vma) (m : Mm) (d : ℕ) : Prop where
  forked : v.Forked
  start : v.type = .binary → v.cpyDst = 0
  whole : v.type = .binary →
    (∀ q, v.HasPage q → isPresent (m.entry d q) = true) ∨ ∀ q, v.HasPage q →
    isPresent (m.entry d q) = false

theorem Vma.Loads.congr {v : Vma} {m m' : Mm} {d d' : ℕ} (h : v.Loads m d)
    (hP : ∀ q, v.HasPage q → isPresent (m'.entry d' q) = isPresent (m.entry d q)) :
    v.Loads m' d' := by
  refine ⟨h.forked, h.start, fun hbin => (h.whole hbin).imp (fun hall q hq => ?_) fun hnone q hq =>
    ?_⟩
  · exact (hP q hq).trans (hall q hq)
  · exact (hP q hq).trans (hnone q hq)

/-- **The invariant of copy on write**: that of all address spaces, a page that may be written to is
mapped by one directory only, and the areas are ones that fork copies. -/
structure CowInv (s : Vm) (D K : Finset ℕ) (l : List ℕ) : Prop where
  inv : VmInv s D K l
  unshared : Unshared s.mm D
  areas : ∀ e d, s.pgdir e = some d → ∀ va v, s.areaAt e va = some v → v.Loads s.mm d

/-- What each environment has at its addresses. -/
abbrev Memory := ℕ → BitVec 32 → BitVec 8

/-- **The environments find what the memory has**, wherever they may read. -/
structure Coherent (s : Vm) (D K : Finset ℕ) (l : List ℕ) (M : Memory) :
    Prop extends CowInv s D K l where
  agrees : ∀ e d, s.pgdir e = some d → ∀ va < uTop, s.Readable e va → s.seen e va = M e va

/-- **No page is there yet**, and the areas are ones that fork copies. -/
theorem CowInv.of_empty {s : Vm} {D K : Finset ℕ} {l : List ℕ} (h : VmInv s D K l)
    (habs : ∀ d ∈ D, ∀ q, q / 1024 < pdx uTop → s.mm.entry d q = 0)
    (hareas : ∀ e va v, s.areaAt e va = some v → v.Forked ∧ (v.type = .binary → v.cpyDst = 0)) :
    CowInv s D K l := by
  refine ⟨h, fun d hd d' hd' hne q hq hP => ?_, fun e d hdir va v ha => ?_⟩
  · rw [habs d hd q hq] at hP
    exact absurd hP (by decide)
  · obtain ⟨hF, hstart⟩ := hareas e va v ha
    refine ⟨hF, hstart, fun _ => Or.inr fun q hq => ?_⟩
    obtain ⟨la, lf, har⟩ := h.areas e
    obtain ⟨⟨i, -, rfl⟩, -⟩ := har.areaAt_iff.1 ha
    rw [habs d (h.dir e d hdir) q ((areaOk_body.2 (har.ok i)).page_low hq)]
    rfl

theorem CowInv.coherent {s : Vm} {D K : Finset ℕ} {l : List ℕ} (h : CowInv s D K l) :
    Coherent s D K l s.seen :=
  ⟨h, fun _ _ _ _ _ _ => rfl⟩

namespace Coherent

variable {s s' : Vm} {D K : Finset ℕ} {l l' : List ℕ} {M M' : Memory} {e d : ℕ} {P : ℕ → Prop}
    {va : BitVec 32} {v : Vma}

/-- The pages of an area that an address lies in are pages of user programs. -/
theorem page_low (h : Coherent s D K l M) (ha : s.areaAt e va = some v) {q : ℕ} (hq : v.HasPage q) :
    q / 1024 < pdx uTop := by
  obtain ⟨la, lf, har⟩ := h.inv.areas e
  obtain ⟨⟨i, -, rfl⟩, -⟩ := har.areaAt_iff.1 ha
  exact (areaOk_body.2 (har.ok i)).page_low hq

/-- **Work on the pages `P` of one environment**: there it has to find what the memory has then. -/
theorem served (h : Coherent s D K l M) (hdir : s.pgdir e = some d) (hs : Served s s' D K l' d P)
    (hloads : ∀ va v, s.areaAt e va = some v → v.Loads s.mm d → v.Loads s'.mm d)
    (hbyte : ∀ va < uTop, P (vpn va) → s'.Readable e va → s'.seen e va = M' e va)
    (hrest : ∀ e' va, ¬ (e' = e ∧ P (vpn va)) → M' e' va = M e' va) : Coherent s' D K l' M' := by
  have harea : ∀ e' va, s'.areaAt e' va = s.areaAt e' va :=
    fun e' va => areaAt_congr (hs.keeps.lists e')
  have hsame : ∀ e' d', s'.pgdir e' = some d' → s.pgdir e' = some d' :=
    fun e' d' hd' => (hs.keeps.pgdir e').symm.trans hd'
  have hother : ∀ e' d', s.pgdir e' = some d' → e' ≠ e → d' ≠ d := by
    rintro e' d' hd' hne rfl
    exact hne (h.inv.distinct e' e d' hd' hdir)
  refine ⟨⟨hs.inv, hs.unshared h.unshared, fun e' d' hd' va v ha => ?_⟩,
    fun e' d' hd' va hva hread => ?_⟩
  · rw [harea] at ha
    have hd := hsame e' d' hd'
    have hold := h.areas e' d' hd va v ha
    by_cases he : e' = e
    · subst he
      obtain rfl : d' = d := Option.some.inj (hd.symm.trans hdir)
      exact hloads va v ha hold
    · refine hold.congr fun q hq => ?_
      have hentry := hs.aside.entry d' (h.inv.dir e' d' hd) q (h.page_low ha hq) fun hc =>
        hother e' d' hd he hc.1
      rw [hentry]
  · have hd := hsame e' d' hd'
    by_cases hP : e' = e ∧ P (vpn va)
    · obtain ⟨rfl, hP⟩ := hP
      exact hbyte va hva hP hread
    · have hn : ¬ (d' = d ∧ P (vpn va)) := by
        rintro ⟨rfl, hc⟩
        exact hP ⟨h.inv.distinct e' e d' hd hdir, hc⟩
      have hview := hs.aside.pageAlike (h.inv.dir e' d' hd) (low_vpn hva) hn
      obtain ⟨hseen, hiff⟩ := seen_congr hd hd' hview (harea e' va) hs.keeps.image
      rw [hseen, hrest e' va hP]
      exact h.agrees e' d' hd va hva (hiff.1 hread)

/-- **An environment has been destroyed.** -/
theorem freed (h : Coherent s D K l M) (hdir : s.pgdir e = some d)
    (hf : VmInv.Freed s s' D K l' e d) :
    Coherent s' (D.erase d) K l' M := by
  have hold : ∀ e' d', s'.pgdir e' = some d' → e' ≠ e ∧ s.pgdir e' = some d' ∧ d' ≠ d := by
    intro e' d' hd'
    rw [hf.pgdir] at hd'
    by_cases he : e' = e
    · rw [if_pos he] at hd'
      exact absurd hd' (by simp)
    · rw [if_neg he] at hd'
      refine ⟨he, hd', ?_⟩
      rintro rfl
      exact he (h.inv.distinct e' e d' hd' hdir)
  have hentry : ∀ d' ∈ D, d' ≠ d → ∀ q, q / 1024 < pdx uTop → s'.mm.entry d' q = s.mm.entry d' q :=
    fun d' hd' hne q hq =>
    hf.aside.entry d' hd' q hq fun hc => hne hc.1
  refine ⟨⟨hf.inv, ?_, fun e' d' hd' va v ha => ?_⟩, fun e' d' hd' va hva hread => ?_⟩
  · intro d₁ hd₁ d₂ hd₂ hne q hq
    obtain ⟨hne₁, hd₁⟩ := Finset.mem_erase.1 hd₁
    obtain ⟨hne₂, hd₂⟩ := Finset.mem_erase.1 hd₂
    rw [hentry d₁ hd₁ hne₁ q hq, hentry d₂ hd₂ hne₂ q hq]
    exact h.unshared d₁ hd₁ d₂ hd₂ hne q hq
  · obtain ⟨he, hd, hne⟩ := hold e' d' hd'
    rw [areaAt_congr (hf.lists e' he)] at ha
    refine (h.areas e' d' hd va v ha).congr fun q hq => ?_
    rw [hentry d' (h.inv.dir e' d' hd) hne q (h.page_low ha hq)]
  · obtain ⟨he, hd, hne⟩ := hold e' d' hd'
    have hview := hf.aside.pageAlike (h.inv.dir e' d' hd) (low_vpn hva) fun hc => hne hc.1
    obtain ⟨hseen, hiff⟩ := seen_congr hd hd' hview (areaAt_congr (hf.lists e' he)) hf.image
    rw [hseen]
    exact h.agrees e' d' hd va hva (hiff.1 hread)

end Coherent

end Jos
