/-
**Fork copies the areas.**

`env_cpy_vmas` makes an area of the child for every area of the parent. `vma_new` puts a new area
behind the areas with the same address or a lower one, so the areas of a sorted list come to the end
of the child's list, one after the other, also where two of them have one address.

Main definitions:

* `Jos.Vma.Copyable` — an area that `vma_new` can make again;
* `Jos.AscendingVa` — the areas are sorted by their addresses, not necessarily strictly.

Main results:

* `Jos.vmaNew_copies` — the copy of one area comes to the end of the list;
* `Jos.cpyVmasFrom_copies` — the loop appends the areas that are left;
* `Jos.envCpyVmas_copies` — **the child has the parent's areas**, in the same order and with the
  same fields.
-/

import JosKernel.SortedAreas
import JosKernel.AddressSpace

set_option relaxedAutoImplicit false
set_option autoImplicit false

namespace Jos

open LinkedList

/-! ### Areas that can be made again -/

/-- **An area that `vma_new` can make again**: of whole pages, with a source exactly if it is an
area of a binary. -/
structure Vma.Copyable (v : Vma) : Prop where
  page : v.va.toNat % 4096 = 0 ∧ v.len.toNat % 4096 = 0
  binary : v.type = .binary → v.cpySrc ≠ 0 ∧ v.srcSz ≠ 0
  anon : v.type ≠ .binary → v.cpySrc = 0 ∧ v.srcSz = 0

/-- The areas are sorted by their addresses.  Two of them may have one address. -/
def AscendingVa (as : List Vma) : Prop := as.Pairwise fun v w => v.va ≤ w.va

instance (v : Vma) : Decidable v.Copyable :=
  decidable_of_iff ((v.va.toNat % 4096 = 0 ∧ v.len.toNat % 4096 = 0) ∧
    (v.type = .binary → v.cpySrc ≠ 0 ∧ v.srcSz ≠ 0) ∧
    (v.type ≠ .binary → v.cpySrc = 0 ∧ v.srcSz = 0)) ⟨fun h => ⟨h.1, h.2.1, h.2.2⟩, fun h =>
      ⟨h.page, h.binary, h.anon⟩⟩

instance (as : List Vma) : Decidable (AscendingVa as) := inferInstanceAs (Decidable (as.Pairwise _))

/-- **`vma_new` fills all fields** of an area but its `hps`. -/
theorem newArea_copy (sp : Space) (el : ℕ) {v : Vma} (h : v.Copyable) :
    { newArea sp el v.va v.len v.type v.cpySrc v.srcSz v.cpyDst v.perm with hps := v.hps } =
      v.body := by
  have hsrc : (if v.type = .binary then v.cpySrc else 0) = v.cpySrc := by
    split
    · rfl
    · exact (h.anon ‹_›).1.symm
  rw [newArea, newVma, roundUp_of_page h.page.2, hsrc]
  rfl

theorem Vm.modSpace_twice (s : Vm) (e : ℕ) (f g : Space → Space) :
    (s.modSpace e f).modSpace e g = s.modSpace e fun _ => g (f (s.envs e)) := by
  simp [Vm.modSpace, Function.update_idem]

/-! ### One area -/

section

variable {sp : Space} {el : ℕ} {lc lf : List ℕ}

/-- **The copy of one area** with an address that no area of the list exceeds: it comes to the
end. -/
theorem vmaNew_copies (h : VmaInv sp lc (el :: lf)) {v : Vma} (hv : v.Copyable)
    (hlast : ∀ w ∈ sp.areas lc, w.va ≤ v.va) :
    ∃ sp', vmaNew sp v.va v.len v.type v.cpySrc v.srcSz v.cpyDst v.perm = .ok (.made el, sp') ∧
      VmaInv (sp'.modVma el fun w => { w with hps := v.hps }) (lc ++ [el]) lf ∧
      (sp'.modVma el fun w => { w with hps := v.hps }).areas (lc ++ [el]) =
        sp.areas lc ++ [v.body] := by
  obtain ⟨pre, post, sp', rfl, -, hpost, hnew, hinv, hat⟩ :=
    @vmaNew_place sp el lc lf h v.va v.len v.type v.cpySrc v.srcSz v.cpyDst v.perm
    hv.binary hv.page.1
  have hnil : post = [] := by
    cases post with
    | nil => rfl
    | cons j post =>
        have hlt : v.va < (sp.vmas j).va := hpost j rfl
        have hmem : (sp.vmas j).body ∈ sp.areas (pre ++ j :: post) :=
          List.mem_map.2 ⟨j, by simp, rfl⟩
        have hle : (sp.vmas j).va ≤ v.va := hlast (sp.vmas j).body hmem
        exact absurd hle (by simpa using hlt)
  subst hnil
  rw [List.append_nil] at h ⊢
  have hel : el ∉ pre := fun hc => h.not_mem_free hc List.mem_cons_self
  refine ⟨sp', hnew, hinv.modVma (hinv.not_mem_free (by simp)) fun _ => rfl, ?_⟩
  rw [Space.areas_append]
  congr 1
  · refine Space.areas_congr fun j hj => ?_
    have hne : j ≠ el := fun hc => hel (hc ▸ hj)
    rw [Space.modVma_of_ne _ _ hne, hat.others j hne]
  · rw [Space.areas, List.map_singleton, Space.modVma_self, ← newArea_copy sp el hv, ← hat.body]
    rfl

end

/-! ### The loop -/

/-- **The loop of `env_cpy_vmas`**: it appends the areas `rest` to the areas that the child has. -/
theorem cpyVmasFrom_copies {child parent : ℕ} (hne : parent ≠ child) :
    ∀ (rest : List ℕ) (fuel : ℕ) (cur n : Option ℕ) (s : Vm)
    (lc lf : List ℕ), rest.length ≤ fuel → rest.length ≤ lf.length →
      Chain (s.envs parent).link cur rest → VmaInv (s.envs child) lc lf →
    (∀ v ∈ (s.envs parent).areas rest, v.Copyable) →
      AscendingVa ((s.envs child).areas lc ++ (s.envs parent).areas rest) →
    ∃ sp lc' lf', cpyVmasFrom child parent fuel cur n s = .ok (true, s.modSpace child fun _ => sp) ∧
      VmaInv sp lc' lf' ∧
      sp.areas lc' = (s.envs child).areas lc ++ (s.envs parent).areas rest := by
  intro rest
  induction rest with
  | nil =>
      intro fuel cur n s lc lf _ _ hchain hinv _ _
      rw [chain_nil] at hchain
      refine ⟨s.envs child, lc, lf, ?_, hinv, by simp [Space.areas]⟩
      rw [hchain, cpyVmasFrom, Vm.modSpace_eq_self rfl]
      rfl
  | cons v rest ih =>
      intro fuel cur n s lc lf hfuel hfree hchain hinv hok hasc
      obtain ⟨rfl, hrest⟩ := hchain
      obtain ⟨fuel, rfl⟩ : ∃ k, fuel = k + 1 := ⟨fuel - 1, by simp at hfuel; omega⟩
      obtain ⟨el, lf, rfl⟩ : ∃ el lf', lf = el :: lf' :=
        List.exists_cons_of_length_pos (by simp at hfree; omega)
      obtain ⟨a, ha⟩ : ∃ a, (s.vma parent v).body = a := ⟨_, rfl⟩
      have hareas : (s.envs parent).areas (v :: rest) = a :: (s.envs parent).areas rest := by
        rw [← ha]
        rfl
      rw [hareas] at hok hasc ⊢
      -- the areas of the child end at the address of the next one, or before
      have hlast : ∀ w ∈ (s.envs child).areas lc, w.va ≤ a.va := fun w hw =>
        (List.pairwise_append.1 hasc).2.2 w hw a List.mem_cons_self
      obtain ⟨sp', hnew, hinv', happ⟩ := vmaNew_copies hinv (hok a List.mem_cons_self) hlast
      obtain ⟨sp₂, hsp₂⟩ : ∃ sp₂, (sp'.modVma el fun w => { w with hps := a.hps }) = sp₂ := ⟨_, rfl⟩
      rw [hsp₂] at hinv' happ
      have habody : a.body = a := by rw [← ha]; rfl
      rw [habody] at happ
      obtain ⟨s₂, hs₂⟩ : ∃ s₂, (s.modSpace child fun _ => sp₂) = s₂ := ⟨_, rfl⟩
      have hchild : s₂.envs child = sp₂ := by rw [← hs₂, Vm.modSpace_self]
      have hparent : s₂.envs parent = s.envs parent := by rw [← hs₂, Vm.modSpace_of_ne _ _ hne]
      have hlink : (s₂.vma parent v).vmaLink = (s.envs parent).link v := by
        rw [Vm.vma, hparent]
        rfl
      have hround : cpyVmasFrom child parent (fuel + 1) (some v) n s =
          cpyVmasFrom child parent fuel (s₂.vma parent v).vmaLink (some el) s₂ := by
        have hnew' : vmaNew (s.envs child) (s.vma parent v).va (s.vma parent v).len
            (s.vma parent v).type (s.vma parent v).cpySrc
            (s.vma parent v).srcSz (s.vma parent v).cpyDst (s.vma parent v).perm =
              .ok (.made el, sp') := by
          rw [← ha] at hnew
          exact hnew
        have hmod : ((s.modSpace child fun _ => sp').modSpace child fun sp =>
            sp.modVma el fun w => { w with hps := (s.vma parent v).hps }) = s₂ := by
          rw [Vm.modSpace_twice, ← hs₂, ← hsp₂, ← ha]
          rfl
        rw [cpyVmasFrom, Vm.onSpace, hnew', ← hmod]
        rfl
      obtain ⟨sp₃, lc', lf', hrun, hinv₃, hareas₃⟩ :=
        ih fuel (s₂.vma parent v).vmaLink (some el) s₂ (lc ++ [el]) lf
        (by simp at hfuel; omega) (by simp at hfree; omega) (by rw [hparent, hlink]; exact hrest)
        (by rw [hchild]; exact hinv')
        (by rw [hparent]; exact fun w hw => hok w (List.mem_cons_of_mem _ hw))
        (by rw [hparent, hchild, happ, List.append_assoc]; exact hasc)
      refine ⟨sp₃, lc', lf', ?_, hinv₃, ?_⟩
      · rw [hround, hrun, ← hs₂, Vm.modSpace_twice]
      · rw [hareas₃, hparent, hchild, happ, List.append_assoc]
        rfl

/-- **`env_cpy_vmas`** for a sorted list and a child that `vma_proc_init` has prepared: it returns
1, the child has the parent's areas with all their fields, position by position, and nothing but the
child changes. -/
theorem envCpyVmas_copies (s : Vm) (child parent : ℕ) (sp₀ : Space)
    (hchild : s.envs child = vmaProcInit sp₀) (la : List ℕ)
    (hla : Chain (s.envs parent).link (s.envs parent).allocVmaList la) (hlow : ∀ i ∈ la, i < nVma)
    (hok : ∀ v ∈ (s.envs parent).areas la, v.Copyable)
    (hasc : AscendingVa ((s.envs parent).areas la)) :
    ∃ sp lc lf, envCpyVmas s child parent = .ok (true, s.modSpace child fun _ => sp) ∧
      VmaInv sp lc lf ∧
      sp.areas lc = (s.envs parent).areas la ∧ lc.length = la.length ∧
      (s.modSpace child fun _ => sp).envs parent = s.envs parent := by
  have hinv := vmaProcInit_inv sp₀
  rw [← hchild] at hinv
  have hlen : la.length ≤ nVma := by
    have hle := List.Nodup.length_le_of_subset hla.nodup fun i hi => List.mem_range.2 (hlow i hi)
    rwa [List.length_range] at hle
  by_cases hne : parent = child
  · -- an environment without areas is copied to itself
    subst hne
    obtain rfl : la = [] := hla.unique hinv.alloc
    refine ⟨s.envs parent, [], List.range nVma, ?_, hinv, rfl, rfl, Vm.modSpace_self ..⟩
    rw [envCpyVmas, hinv.alloc.eq_nil_iff.1 rfl, cpyVmasFrom, Vm.modSpace_eq_self rfl]
    rfl
  · obtain ⟨sp, lc, lf, hrun, hinv', hareas⟩ :=
      cpyVmasFrom_copies hne la nVma _ none s [] (List.range nVma) hlen (by simpa using hlen) hla
      hinv hok hasc
    have hsame : sp.areas lc = (s.envs parent).areas la := hareas
    refine ⟨sp, lc, lf, hrun, hinv', hsame, ?_, Vm.modSpace_of_ne _ _ hne⟩
    have hlength := congrArg List.length hsame
    rwa [Space.areas, Space.areas, List.length_map, List.length_map] at hlength

/-! ### Two areas at one address -/

/-- An area of a binary and an anonymous one with the same address. -/
def twinAreas : Space where
  pgdir := none
  vmas := fun i => if i = 1 then ⟨.binary, 0x1000, 0x2000, 5, some 0, 0x200000, 0x1800, 16, false⟩
    else ⟨.anon, 0x1000, 0x1000, 7, none, 0, 0, 0, true⟩
  freeVmaList := none
  allocVmaList := some 1
  allocPages := 0

/-- An environment with these areas, and one that `vma_proc_init` has prepared. -/
def twins : Vm := (Vm.blank.modSpace 1 fun _ => twinAreas).modSpace 2 vmaProcInit

/-- The order of the two areas is kept. -/
theorem envCpyVmas_copies_twins :
    ∃ sp lc lf, envCpyVmas twins 2 1 = .ok (true, twins.modSpace 2 fun _ => sp) ∧ VmaInv sp lc lf ∧
    sp.areas lc = (twins.envs 1).areas [1, 0] ∧ lc.length = [1, 0].length ∧
    (twins.modSpace 2 fun _ => sp).envs 1 = twins.envs 1 := by
  have hparent : twins.envs 1 = twinAreas := by
    rw [twins, Vm.modSpace_of_ne _ _ (by decide), Vm.modSpace_self]
  refine envCpyVmas_copies twins 2 1 _ (Vm.modSpace_self ..) [1, 0] ?_ (by decide) ?_ ?_
  · rw [hparent]
    exact ⟨rfl, rfl, rfl⟩
  · rw [hparent]
    decide
  · rw [hparent]
    decide

end Jos
