/-
**Environment ids.**

`env_alloc` packs a generation and a slot into the id of an environment. The generation lives in the
bits from 12 on, is advanced by one each time the slot is used, and starts again at 1 when the sum
turns negative; the slot is in the low ten bits, which `ENVX` reads back.

The free list that `env_init` builds has one slot more than the table. It is the last of the list,
and an environment in it has an id whose low ten bits are those of slot 0.

Main definitions:

* `Jos.idOf` — the id of the generation `g` of a slot;
* `Jos.IdOp`, `Jos.idStep` — `env_alloc` and `env_free`, as a transition system;
* `Jos.assigned` — the ids a run has given to a slot.

Main results:

* `Jos.newEnvId_eq` — the generation after a generation;
* `Jos.ids_identify_slots` — in runs that leave the extra slot alone, ids identify slots;
* `Jos.stale_ids_rejected` — **stale ids are rejected** until the generations have gone round.
-/

import Mathlib.Data.Set.Card
import JosKernel.Env
import JosKernel.LabelledRun

set_option relaxedAutoImplicit false
set_option autoImplicit false

namespace Jos

open LabelledRun

/-! ### The arithmetic of ids -/

/-- The number of generations of a slot. -/
def nGens : ℕ := 2 ^ 19 - 1

/-- The id of the generation `g` of the slot `x`. -/
def idOf (g x : ℕ) : BitVec 32 := BitVec.ofNat 32 (g * 4096 + x)

theorem idOf_toNat {g x : ℕ} (hg : g ≤ nGens) (hx : x < nEnv) :
    (idOf g x).toNat = g * 4096 + x := by
  simp only [idOf, nGens, nEnv] at *
  rw [BitVec.toNat_ofNat]
  omega

/-- `id & ~(NENV - 1)` clears the low ten bits. -/
theorem and_not_toNat (v : BitVec 32) :
    (v &&& ~~~BitVec.ofNat 32 (nEnv - 1)).toNat = v.toNat / 1024 * 1024 := by
  have hmask : ∀ k : Fin 32, (BitVec.ofNat 32 (nEnv - 1)).getLsbD k = decide (k.val < 10) := by
    decide
  have hshift : v &&& ~~~BitVec.ofNat 32 (nEnv - 1) = v >>> 10 <<< 10 := by
    ext k hk
    have hk' := hmask ⟨k, hk⟩
    rw [BitVec.getLsbD_eq_getElem hk] at hk'
    simp only [BitVec.getElem_and, BitVec.getElem_not, BitVec.getElem_shiftLeft,
      BitVec.getElem_ushiftRight, hk']
    by_cases hlow : k < 10
    · simp [hlow]
    · have hsum : 10 + (k - 10) = k := by omega
      simp [hlow, hsum, BitVec.getLsbD_eq_getElem hk]
  have := v.isLt
  rw [hshift, BitVec.toNat_shiftLeft, BitVec.toNat_ushiftRight, Nat.shiftRight_eq_div_pow,
    Nat.shiftLeft_eq]
  omega

theorem envx_eq (v : BitVec 32) : envx v = v.toNat % 1024 := by
  rw [envx, BitVec.toNat_and]
  exact Nat.and_two_pow_sub_one_eq_mod v.toNat 10

theorem envx_idOf {g x : ℕ} (hg : g ≤ nGens) (hx : x < nEnv) : envx (idOf g x) = x := by
  rw [envx_eq, idOf_toNat hg hx]
  simp only [nEnv] at hx
  omega

theorem toInt_idOf {g x : ℕ} (hg : g ≤ nGens) (hx : x < nEnv) :
    (idOf g x).toInt = ((g * 4096 + x : ℕ) : ℤ) := by
  rw [BitVec.toInt_eq_toNat_of_lt, idOf_toNat hg hx]
  rw [idOf_toNat hg hx]
  simp only [nGens, nEnv] at *
  omega

theorem idOf_inj {g g' x x' : ℕ} (hg : g ≤ nGens) (hg' : g' ≤ nGens) (hx : x < nEnv)
    (hx' : x' < nEnv) (h : idOf g x = idOf g' x') : g = g' ∧ x = x' := by
  have hn := congrArg BitVec.toNat h
  rw [idOf_toNat hg hx, idOf_toNat hg' hx'] at hn
  simp only [nEnv] at hx hx'
  omega

/-- The generation after `g`. -/
def nextGen (g : ℕ) : ℕ := if g + 1 ≤ nGens then g + 1 else 1

/-- **The generation after a generation**, whatever the low ten bits of the old id are. -/
theorem newEnvId_eq {old : BitVec 32} {g r x : ℕ} (hold : old.toNat = g * 4096 + r) (hr : r < 1024)
    (hg : g ≤ nGens) (hx : x < nEnv) : newEnvId old x = idOf (nextGen g) x := by
  have hxn : x < 1024 := hx
  have hgn : g ≤ 524287 := hg
  have hshift : (1#32 <<< envGenShift).toNat = 4096 := by decide
  have hadd : (old + 1#32 <<< envGenShift).toNat = (g + 1) * 4096 + r := by
    rw [BitVec.toNat_add, hold, hshift]
    omega
  have hgen : ((old + 1#32 <<< envGenShift) &&& ~~~BitVec.ofNat 32 (nEnv - 1)).toNat =
      (g + 1) * 4096 := by
    rw [and_not_toNat, hadd]
    omega
  have hor : ∀ (v : BitVec 32) (n : ℕ), v.toNat = n * 4096 → n ≤ nGens →
      v ||| BitVec.ofNat 32 x = idOf n x := by
    intro v n hv hn
    refine BitVec.eq_of_toNat_eq ?_
    have hlt : (BitVec.ofNat 32 x).toNat = x := by
      rw [BitVec.toNat_ofNat]
      omega
    have hadd := Nat.shiftLeft_add_eq_or_of_lt (i := 12) (show x < 2 ^ 12 by omega) n
    rw [Nat.shiftLeft_eq] at hadd
    rw [BitVec.toNat_or, hv, hlt, idOf_toNat hn hx]
    exact hadd.symm
  unfold newEnvId nextGen
  dsimp only
  by_cases hlast : g + 1 ≤ nGens
  · -- the sum is still positive
    have hpos : ¬ ((old + 1#32 <<< envGenShift) &&& ~~~BitVec.ofNat 32 (nEnv - 1)).sle 0 =
      true := by
      rw [BitVec.sle_iff_toInt_le, BitVec.toInt_eq_toNat_of_lt, hgen]
      · have hzero : (0 : BitVec 32).toInt = 0 := by decide
        rw [hzero]
        omega
      · rw [hgen]
        simp only [nGens] at hlast
        omega
    rw [if_neg hpos, if_pos hlast]
    exact hor _ _ hgen hlast
  · -- the sum is `INT_MIN`
    have hneg : ((old + 1#32 <<< envGenShift) &&& ~~~BitVec.ofNat 32 (nEnv - 1)).sle 0 = true := by
      have hval : ((old + 1#32 <<< envGenShift) &&& ~~~BitVec.ofNat 32 (nEnv - 1)) =
          0x80000000#32 := by
        refine BitVec.eq_of_toNat_eq ?_
        rw [hgen]
        simp only [nGens] at hlast hg
        simp
        omega
      rw [hval]
      decide
    rw [if_pos hneg, if_neg hlast]
    exact hor _ 1 (by rw [hshift]) (by decide)

/-- The generation of the `n`-th use of a slot, counted from 0. -/
def genAt (n : ℕ) : ℕ := n % nGens + 1

theorem genAt_le (n : ℕ) : 1 ≤ genAt n ∧ genAt n ≤ nGens := by
  have := Nat.mod_lt n (show 0 < nGens by decide)
  unfold genAt
  omega

theorem nextGen_genAt (n : ℕ) : nextGen (genAt n) = genAt (n + 1) := by
  have hlt := Nat.mod_lt n (show 0 < nGens by decide)
  unfold nextGen genAt
  by_cases hlast : n % nGens + 1 + 1 ≤ nGens
  · rw [if_pos hlast, Nat.add_mod, Nat.mod_eq_of_lt (show 1 < nGens by decide),
      Nat.mod_eq_of_lt (show n % nGens + 1 < nGens by omega)]
  · have heq : n % nGens + 1 = nGens := by omega
    rw [if_neg hlast, Nat.add_mod, Nat.mod_eq_of_lt (show 1 < nGens by decide), heq, Nat.mod_self]

/-- Two uses of a slot that are less than `nGens` apart have different generations. -/
theorem genAt_ne {m n : ℕ} (hlt : m < n) (hnear : n - m < nGens) : genAt m ≠ genAt n := by
  intro h
  have hmod : m % nGens = n % nGens := by
    unfold genAt at h
    omega
  have hdvd := (Nat.modEq_iff_dvd' (Nat.le_of_lt hlt)).1 hmod
  have hle := Nat.le_of_dvd (by omega) hdvd
  omega

/-- The id of a slot that has been used `n` times. -/
def idAfter (x : ℕ) : ℕ → BitVec 32
  | 0 => 0
  | n + 1 => idOf (genAt n) x

theorem newEnvId_idAfter {x : ℕ} (hx : x < nEnv) (n : ℕ) :
    newEnvId (idAfter x n) x = idAfter x (n + 1) := by
  cases n with
  | zero => exact newEnvId_eq (g := 0) (r := 0) rfl (by decide) (by decide) hx
  | succ n =>
      have hg := genAt_le n
      rw [idAfter, newEnvId_eq (idOf_toNat hg.2 hx) hx hg.2 hx, nextGen_genAt]
      rfl

/-! ### Allocation and release as a transition system -/

/-- The two calls.  An allocation is labelled with the slot and the id that it gives. -/
inductive IdOp
  | alloc (parentId : BitVec 32) (type : EnvType) (x : ℕ) (id : BitVec 32)
  | free (c x : ℕ)

/-- **`env_alloc` and `env_free`.**  An environment that is released has been allocated before. -/
def idStep (s : Kernel) : IdOp → Kernel → Prop
  | .alloc parentId type x id, t => envAlloc s parentId type = some (x, t) ∧ (t.envs x).envId = id
  | .free c x, t => s.status x ≠ .free ∧ t = envFree s c x

/-- The id that a call gives to the slot `k`. -/
def IdOp.idFor (k : ℕ) : IdOp → Option (BitVec 32)
  | .alloc _ _ x id => if x = k then some id else none
  | .free _ _ => none

/-- The ids that a run has given to the slot `k`, in order. -/
def assigned (k : ℕ) (tr : List (Kernel × IdOp)) : List (BitVec 32) :=
  tr.filterMap fun p => p.2.idFor k

theorem assigned_snoc (k : ℕ) (tr : List (Kernel × IdOp)) (s : Kernel) (op : IdOp) :
    assigned k (tr ++ [(s, op)]) = assigned k tr ++ (op.idFor k).toList := by
  rw [assigned, List.filterMap_append]
  cases h : op.idFor k <;> simp [assigned, h]

/-- What `env_alloc` changes. -/
theorem envAlloc_some {s t : Kernel} {parentId : BitVec 32} {type : EnvType} {x : ℕ}
    (h : envAlloc s parentId type = some (x, t)) :
    s.envFreeList = x :: t.envFreeList ∧ (t.envs x).envId = newEnvId (s.envs x).envId x ∧
      t.status x = .runnable ∧ ∀ y ≠ x, t.envs y = s.envs y := by
  unfold envAlloc at h
  cases hl : s.envFreeList with
  | nil => simp [hl] at h
  | cons y rest =>
      simp only [hl, Option.some.injEq, Prod.mk.injEq] at h
      obtain ⟨rfl, rfl⟩ := h
      refine ⟨rfl, ?_, ?_, ?_⟩
      · simp [Kernel.modEnv]
      · simp [Kernel.modEnv, Kernel.status]
      · intro z hz
        simp [Kernel.modEnv, Function.update_of_ne hz]

theorem notifyWaiter_envId (envid : BitVec 32) (i : ℕ) (e : Env) :
    (notifyWaiter envid i e).envId = e.envId := by
  unfold notifyWaiter
  split <;> rfl

theorem notifyWaiter_free (envid : BitVec 32) (i : ℕ) (e : Env) :
    (notifyWaiter envid i e).status = .free ↔ e.status = .free := by
  unfold notifyWaiter
  split
  · rename_i h
    simp [h.2.1]
  · exact Iff.rfl

/-- What `env_free` changes, as far as slots and ids go. -/
theorem envFree_slots (s : Kernel) (c x : ℕ) :
    (envFree s c x).envFreeList = x :: s.envFreeList ∧
      (∀ y, ((envFree s c x).envs y).envId = (s.envs y).envId) ∧
      ∀ y, (envFree s c x).status y = .free ↔ y = x ∨ s.status y = .free := by
  refine ⟨rfl, ?_, ?_⟩
  · intro y
    by_cases hy : y = x
    · subst hy
      simp [envFree, Kernel.setStatus, Kernel.modEnv, notifyWaiter_envId]
    · simp [envFree, Kernel.setStatus, Kernel.modEnv, Function.update_of_ne hy, notifyWaiter_envId]
  · intro y
    by_cases hy : y = x
    · subst hy
      simp [envFree, Kernel.setStatus, Kernel.modEnv, Kernel.status]
    · simp [envFree, Kernel.setStatus, Kernel.modEnv, Kernel.status, hy, notifyWaiter_free]

/-! ### Stale ids -/

/-- **The ids of a slot** along a run: one generation after the other. -/
theorem assigned_eq {s : Kernel} {tr : List (Kernel × IdOp)} (hr : Run idStep Kernel.init tr s)
    {k : ℕ} (hk : k < nEnv) :
    assigned k tr = (List.range (assigned k tr).length).map (fun i => idOf (genAt i) k) ∧
      (s.envs k).envId = idAfter k (assigned k tr).length := by
  induction hr with
  | nil => exact ⟨rfl, rfl⟩
  | snoc _ hst ih =>
      rename_i t u tr op hrun
      rw [assigned_snoc]
      cases op with
      | free c x =>
          obtain ⟨-, rfl⟩ := hst
          simp only [IdOp.idFor, Option.toList_none, List.append_nil]
          exact ⟨ih.1, ((envFree_slots t c x).2.1 k).trans ih.2⟩
      | alloc parentId type x id =>
          obtain ⟨halloc, rfl⟩ := hst
          obtain ⟨-, hid, -, hrest⟩ := envAlloc_some halloc
          by_cases hx : x = k
          · subst hx
            have hnew : (u.envs x).envId = idAfter x ((assigned x tr).length + 1) := by
              rw [hid, ih.2, newEnvId_idAfter hk]
            simp only [IdOp.idFor, if_true, Option.toList_some, List.length_append,
              List.length_singleton]
            refine ⟨?_, hnew⟩
            rw [List.range_succ, List.map_append, ← ih.1, hnew]
            rfl
          · simp only [IdOp.idFor, hx, if_false, Option.toList_none, List.append_nil]
            rw [hrest k (Ne.symm hx)]
            exact ih

theorem assigned_getElem {s : Kernel} {tr : List (Kernel × IdOp)} (hr : Run idStep Kernel.init tr s)
    {k : ℕ} (hk : k < nEnv) {i : ℕ} {id : BitVec 32} (hi : (assigned k tr)[i]? = some id) :
    i < (assigned k tr).length ∧ id = idOf (genAt i) k := by
  have hlt : i < (assigned k tr).length := by
    by_contra hge
    rw [List.getElem?_eq_none (by omega)] at hi
    exact absurd hi (by simp)
  refine ⟨hlt, ?_⟩
  rw [(assigned_eq hr hk).1, List.getElem?_map, List.getElem?_range hlt] at hi
  exact (Option.some_inj.1 hi).symm

theorem idOf_bits {g x : ℕ} (hg : g ≤ nGens) (hx : x < nEnv) :
    (idOf g x).getLsbD 10 = false ∧ (idOf g x).getLsbD 11 = false := by
  have hxn : x < 1024 := hx
  constructor
  · rw [BitVec.getLsbD, idOf_toNat hg hx, Nat.testBit_eq_decide_div_mod_eq, decide_eq_false_iff_not]
    omega
  · rw [BitVec.getLsbD, idOf_toNat hg hx, Nat.testBit_eq_decide_div_mod_eq, decide_eq_false_iff_not]
    omega

/-- `envid2env` rejects an id that its slot does not have, or that has been released. -/
theorem envid2env_eq_none {s : Kernel} {id : BitVec 32} (hid : id ≠ 0)
    (h : s.status (envx id) = .free ∨ (s.envs (envx id)).envId ≠ id) (c : ℕ) (checkperm : Bool) :
    envid2env s c id checkperm = none := by
  rw [envid2env, if_neg hid]
  exact if_pos h

/-- **Stale ids are rejected.** The ids of a slot of the table are positive, name the slot and have
their bits 10 and 11 clear; any two that are less than `2 ^ 19 - 1` allocations of the slot apart
are different; and `envid2env` rejects the id of an environment that has been released as long as
its slot has been allocated fewer than `2 ^ 19 - 1` times since. -/
theorem stale_ids_rejected {s : Kernel} {tr : List (Kernel × IdOp)}
    (hr : Run idStep Kernel.init tr s) {k : ℕ} (hk : k < nEnv) :
    (∀ id ∈ assigned k tr, 0 < id.toInt ∧ envx id = k ∧ id.getLsbD 10 = false ∧
      id.getLsbD 11 = false) ∧
    (∀ i j id id', (assigned k tr)[i]? = some id → (assigned k tr)[j]? = some id' → i < j →
      j - i < 2 ^ 19 - 1 → id ≠ id') ∧
    ∀ i id, (assigned k tr)[i]? = some id →
      (i + 1 < (assigned k tr).length ∨ s.status k = .free) →
      (assigned k tr).length - (i + 1) < 2 ^ 19 - 1 →
      ∀ c checkperm, envid2env s c id checkperm = none := by
  refine ⟨?_, ?_, ?_⟩
  · intro id hid
    obtain ⟨i, hi⟩ := List.mem_iff_getElem?.1 hid
    obtain ⟨-, rfl⟩ := assigned_getElem hr hk hi
    have hg := genAt_le i
    refine ⟨?_, envx_idOf hg.2 hk, idOf_bits hg.2 hk⟩
    rw [toInt_idOf hg.2 hk]
    omega
  · intro i j id id' hi hj hij hnear heq
    obtain ⟨-, rfl⟩ := assigned_getElem hr hk hi
    obtain ⟨-, rfl⟩ := assigned_getElem hr hk hj
    exact genAt_ne hij hnear (idOf_inj (genAt_le i).2 (genAt_le j).2 hk hk heq).1
  · intro i id hi hgone hnear c checkperm
    obtain ⟨hlt, rfl⟩ := assigned_getElem hr hk hi
    have hg := genAt_le i
    have hx := envx_idOf hg.2 hk
    refine envid2env_eq_none ?_ ?_ c checkperm
    · intro hzero
      have hn := idOf_toNat hg.2 hk
      rw [hzero] at hn
      simp at hn
      omega
    · rw [hx]
      rcases hgone with hlater | hfree
      · refine Or.inr ?_
        obtain ⟨n, hn⟩ : ∃ n, (assigned k tr).length = n + 1 :=
          ⟨_, (Nat.sub_add_cancel (by omega)).symm⟩
        rw [(assigned_eq hr hk).2, hn, idAfter]
        intro heq
        exact genAt_ne (by omega) (show n - i < nGens by simp only [nGens]; omega)
          (idOf_inj (genAt_le n).2 hg.2 hk hk heq).1.symm
      · exact Or.inl hfree

theorem Kernel.init_envFreeList : Kernel.init.envFreeList = List.range (nEnv + 1) := by
  rw [Kernel.init]

theorem Kernel.init_freeList : Kernel.init.envFreeList = 0 :: List.range' 1 nEnv := by
  rw [Kernel.init_envFreeList, List.range_eq_range', List.range'_succ]

/-- The state after the first allocation. -/
theorem envAlloc_init (parentId : BitVec 32) (type : EnvType) :
    ∃ t, envAlloc Kernel.init parentId type = some (0, t) ∧ t.envFreeList = List.range' 1 nEnv := by
  rw [envAlloc, Kernel.init_freeList]
  exact ⟨_, rfl, rfl⟩

/-- The first environment is allocated and released: its id `0x1000` is rejected. -/
theorem stale_ids_rejected_first :
    ∃ tr s, Run idStep Kernel.init tr s ∧ assigned 0 tr = [0x1000#32] ∧
      envid2env s 0 0x1000#32 false = none := by
  obtain ⟨t, ht, -⟩ := envAlloc_init 0 .user
  obtain ⟨-, hid, hst, -⟩ := envAlloc_some ht
  have hid' : (t.envs 0).envId = 0x1000#32 := by
    rw [hid, Kernel.init]
    decide
  have hrun : Run idStep Kernel.init
      ([] ++ [(Kernel.init, IdOp.alloc 0 .user 0 0x1000#32)] ++ [(t, IdOp.free 0 0)])
      (envFree t 0 0) :=
    ((Run.nil _).snoc ⟨ht, hid'⟩).snoc ⟨by rw [hst]; decide, rfl⟩
  refine ⟨_, _, hrun, rfl, ?_⟩
  exact (stale_ids_rejected hrun (k := 0) (by decide)).2.2 0 _ rfl
    (Or.inr (((envFree_slots t 0 0).2.2 0).2 (Or.inl rfl)))
    (show 1 - (0 + 1) < 2 ^ 19 - 1 by decide) 0
    false

/-! ### Ids identify slots -/

/-- A slot of the table is free. -/
def SlotLeft (s : Kernel) : Prop := ∃ x < nEnv, s.status x = .free

/-- An allocation is only asked for while a slot of the table is free. -/
def AllocInTable (s : Kernel) : IdOp → Prop
  | .alloc _ _ _ _ => SlotLeft s
  | .free _ _ => True

/-- **The invariant**: the free list holds the free slots once each, with the one outside the table
at the end, and the id of a slot in use is one of its generations. -/
structure SlotsInv (s : Kernel) : Prop where
  nodup : s.envFreeList.Nodup
  mem : ∀ x, x ∈ s.envFreeList ↔ x ≤ nEnv ∧ s.status x = .free
  last : ∃ l, s.envFreeList = l ++ [nEnv]
  beyond : ∀ x, nEnv < x → s.status x = .free
  ids : ∀ x < nEnv, ∃ n, (s.envs x).envId = idAfter x n ∧ (s.status x ≠ .free → 0 < n)

theorem slotsInv_init : SlotsInv Kernel.init where
  nodup := by
    rw [Kernel.init_envFreeList]
    exact List.nodup_range
  mem x := by
    rw [Kernel.init_envFreeList, List.mem_range]
    constructor
    · intro hx
      exact ⟨by omega, rfl⟩
    · rintro ⟨hx, -⟩
      omega
  last := by
    rw [Kernel.init_envFreeList, List.range_succ]
    exact ⟨List.range nEnv, rfl⟩
  beyond _ _ := rfl
  ids x _ := ⟨0, rfl, fun h => absurd rfl h⟩

theorem SlotsInv.alloc {s t : Kernel} (h : SlotsInv s) (hleft : SlotLeft s) {parentId : BitVec 32}
    {type : EnvType} {x : ℕ} (ha : envAlloc s parentId type = some (x, t)) : SlotsInv t := by
  obtain ⟨hlist, hid, hst, hrest⟩ := envAlloc_some ha
  have hnd := h.nodup
  rw [hlist] at hnd
  obtain ⟨hxt, hnd⟩ := List.nodup_cons.1 hnd
  have hxs := (h.mem x).1 (by rw [hlist]; simp)
  have hstatus : ∀ y ≠ x, t.status y = s.status y := fun y hy => by
    rw [Kernel.status, hrest y hy]
    rfl
  -- the slot outside the table is the last one, and another one is free
  have hlast : ∃ l, t.envFreeList = l ++ [nEnv] := by
    obtain ⟨l, hl⟩ := h.last
    obtain ⟨y, hy, hyfree⟩ := hleft
    have hmem := (h.mem y).2 ⟨Nat.le_of_lt hy, hyfree⟩
    rw [hl] at hmem hlist
    cases l with
    | nil =>
        have hyn : y = nEnv := by simpa using hmem
        omega
    | cons z l => exact ⟨l, (List.cons.inj hlist).2.symm⟩
  have hxn : x < nEnv := by
    rcases Nat.lt_or_ge x nEnv with hx | hx
    · exact hx
    · obtain ⟨l, hl⟩ := hlast
      have hxe : x = nEnv := by omega
      exact absurd (by rw [hl, hxe]; simp) hxt
  refine ⟨hnd, ?_, hlast, ?_, ?_⟩
  · intro y
    by_cases hy : y = x
    · subst hy
      simp [hxt, hst]
    · rw [hstatus y hy, ← h.mem y, hlist]
      simp [hy]
  · intro y hy
    rw [hstatus y (by omega)]
    exact h.beyond y hy
  · intro y hy
    by_cases hyx : y = x
    · subst hyx
      obtain ⟨n, hn, -⟩ := h.ids y hy
      refine ⟨n + 1, ?_, fun _ => Nat.succ_pos n⟩
      rw [hid, hn, newEnvId_idAfter hy]
    · rw [hrest y hyx, hstatus y hyx]
      exact h.ids y hy

theorem SlotsInv.live_lt {s : Kernel} (h : SlotsInv s) {x : ℕ} (hx : s.status x ≠ .free) :
    x < nEnv := by
  rcases Nat.lt_trichotomy x nEnv with hlt | heq | hgt
  · exact hlt
  · obtain ⟨l, hl⟩ := h.last
    exact absurd ((h.mem x).1 (by rw [hl, heq]; simp)).2 hx
  · exact absurd (h.beyond x hgt) hx

theorem SlotsInv.release {s : Kernel} (h : SlotsInv s) {x : ℕ} (hx : s.status x ≠ .free) (c : ℕ) :
    SlotsInv (envFree s c x) := by
  obtain ⟨hlist, hid, hst⟩ := envFree_slots s c x
  have hxn := h.live_lt hx
  refine ⟨?_, ?_, ?_, ?_, ?_⟩
  · rw [hlist, List.nodup_cons, h.mem]
    exact ⟨fun hf => hx hf.2, h.nodup⟩
  · intro y
    rw [hlist, List.mem_cons, h.mem, hst]
    constructor
    · rintro (rfl | hy)
      · exact ⟨by omega, Or.inl rfl⟩
      · exact ⟨hy.1, Or.inr hy.2⟩
    · rintro ⟨hy, rfl | hfree⟩
      · exact Or.inl rfl
      · exact Or.inr ⟨hy, hfree⟩
  · obtain ⟨l, hl⟩ := h.last
    exact ⟨x :: l, by rw [hlist, hl]; rfl⟩
  · intro y hy
    exact (hst y).2 (Or.inr (h.beyond y hy))
  · intro y hy
    obtain ⟨n, hn, hpos⟩ := h.ids y hy
    refine ⟨n, (hid y).trans hn, fun hlive => hpos fun hfree => ?_⟩
    exact hlive ((hst y).2 (Or.inr hfree))

theorem SlotsInv.step {s t : Kernel} {op : IdOp} (h : SlotsInv s) (hG : AllocInTable s op)
    (hst : idStep s op t) : SlotsInv t := by
  cases op with
  | alloc parentId type x id => exact h.alloc hG hst.1
  | free c x =>
      obtain ⟨hlive, rfl⟩ := hst
      exact h.release hlive c

/-- The id of a slot in use names the slot. -/
theorem SlotsInv.id_eq {s : Kernel} (h : SlotsInv s) {x : ℕ} (hx : s.status x ≠ .free) :
    ∃ g, 1 ≤ g ∧ g ≤ nGens ∧ (s.envs x).envId = idOf g x := by
  obtain ⟨n, hn, hpos⟩ := h.ids x (h.live_lt hx)
  cases n with
  | zero => exact absurd (hpos hx) (Nat.lt_irrefl 0)
  | succ n => exact ⟨genAt n, (genAt_le n).1, (genAt_le n).2, hn⟩

/-- **Ids identify slots** in every state of a run that allocates only while a slot of the table is
free. -/
theorem ids_identify_slots {s : Kernel} {tr : List (Kernel × IdOp)}
    (hr : Run idStep Kernel.init tr s) (hG : Meets AllocInTable tr) :
    {x | s.status x ≠ .free}.encard ≤ nEnv ∧
    (∀ x y, s.status x ≠ .free → s.status y ≠ .free → (s.envs x).envId = (s.envs y).envId → x = y) ∧
    ∀ x, s.status x ≠ .free → envx (s.envs x).envId = x ∧
      ∀ c, envid2env s c (s.envs x).envId false = some x := by
  have h := hr.invariant (fun _ _ _ (h : SlotsInv _) hG hst => h.step hG hst) slotsInv_init hG
  have hname : ∀ x, s.status x ≠ .free → envx (s.envs x).envId = x := by
    intro x hx
    obtain ⟨g, -, hg, hid⟩ := h.id_eq hx
    rw [hid, envx_idOf hg (h.live_lt hx)]
  refine ⟨?_, ?_, ?_⟩
  · calc {x | s.status x ≠ .free}.encard
        ≤ (Finset.range nEnv : Set ℕ).encard :=
          Set.encard_le_encard fun x hx => by simpa using h.live_lt hx
      _ = nEnv := by rw [Set.encard_coe_eq_coe_finsetCard, Finset.card_range]
  · intro x y hx hy heq
    rw [← hname x hx, ← hname y hy, heq]
  · intro x hx
    refine ⟨hname x hx, fun c => ?_⟩
    obtain ⟨g, hpos, hg, hid⟩ := h.id_eq hx
    have hne : (s.envs x).envId ≠ 0 := by
      intro hzero
      have hn := idOf_toNat hg (h.live_lt hx)
      rw [← hid, hzero] at hn
      simp at hn
      omega
    unfold envid2env
    rw [if_neg hne, hname x hx]
    dsimp only
    rw [if_neg (by simp [hx])]
    cases s.curenv c <;> simp

/-- The first environment is found by its id. -/
theorem ids_identify_slots_first :
    ∃ tr s, Run idStep Kernel.init tr s ∧ Meets AllocInTable tr ∧ s.status 0 ≠ .free ∧
      envid2env s 0 (s.envs 0).envId false = some 0 := by
  obtain ⟨t, ht, -⟩ := envAlloc_init 0 .user
  obtain ⟨-, -, hst, -⟩ := envAlloc_some ht
  have hrun : Run idStep Kernel.init
      ([] ++ [(Kernel.init, IdOp.alloc 0 .user 0 (t.envs 0).envId)]) t :=
    (Run.nil _).snoc ⟨ht, rfl⟩
  have hmeets : Meets AllocInTable
    ([] ++ [(Kernel.init, IdOp.alloc 0 .user 0 (t.envs 0).envId)]) := by
    intro p hp
    rw [List.nil_append, List.mem_singleton] at hp
    subst hp
    exact ⟨0, by decide, rfl⟩
  have hlive : t.status 0 ≠ .free := by rw [hst]; decide
  exact ⟨_, t, hrun, hmeets, hlive, ((ids_identify_slots hrun hmeets).2.2 0 hlive).2 0⟩

/-- After `n` allocations the first `n` slots of the list are in use. -/
theorem exists_run_alloc : ∀ n ≤ nEnv + 1, ∃ tr s, Run idStep Kernel.init tr s ∧
    s.envFreeList = List.range' n (nEnv + 1 - n) ∧
      ∀ x < n, s.status x ≠ .free ∧ ∃ old, (s.envs x).envId = newEnvId old x := by
  intro n
  induction n with
  | zero =>
      intro _
      exact ⟨[], Kernel.init, Run.nil _, by rw [Kernel.init, List.range_eq_range']; rfl,
        fun x hx => absurd hx (Nat.not_lt_zero x)⟩
  | succ n ih =>
      intro hn
      obtain ⟨tr, s, hrun, hlist, hlive⟩ := ih (by omega)
      obtain ⟨m, hm⟩ : ∃ m, nEnv + 1 - n = m + 1 := ⟨nEnv - n, by omega⟩
      rw [hm, List.range'_succ] at hlist
      obtain ⟨t, ht⟩ : ∃ t, envAlloc s 0 .user = some (n, t) := by
        rw [envAlloc, hlist]
        exact ⟨_, rfl⟩
      obtain ⟨hl, hid, hst, hrest⟩ := envAlloc_some ht
      refine ⟨_, t, hrun.snoc (a := IdOp.alloc 0 .user n (t.envs n).envId) ⟨ht, rfl⟩, ?_, ?_⟩
      · rw [hlist] at hl
        rw [← (List.cons.inj hl).2]
        congr 1
        omega
      · intro x hx
        by_cases hxn : x = n
        · subst hxn
          exact ⟨by rw [hst]; decide, _, hid⟩
        · rw [Kernel.status, hrest x hxn]
          exact hlive x (by omega)

/-- The id of an environment outside the table has its bit 10 set. -/
theorem newEnvId_nEnv_ne_zero (old : BitVec 32) : newEnvId old nEnv ≠ 0 := by
  intro h
  have hbit := congrArg (fun v : BitVec 32 => v.getLsbD 10) h
  have hten : (BitVec.ofNat 32 nEnv).getLsbD 10 = true := by decide
  rw [newEnvId] at hbit
  simp only [BitVec.getLsbD_or, hten] at hbit
  simp at hbit

/-- **The slot outside the table.** With one allocation more than the table has slots, an
environment lives in slot `NENV`, there are more than `NENV` of them, and the id of this one names
another slot. -/
theorem ids_misidentify_slot :
    ∃ tr s, Run idStep Kernel.init tr s ∧ s.status nEnv ≠ .free ∧
      envx (s.envs nEnv).envId ≠ nEnv ∧ envid2env s 0 (s.envs nEnv).envId false ≠ some nEnv ∧
      nEnv < {x | s.status x ≠ .free}.encard := by
  obtain ⟨tr, s, hrun, -, hlive⟩ := exists_run_alloc (nEnv + 1) (Nat.le_refl _)
  have hx : envx (s.envs nEnv).envId < nEnv := by
    rw [envx_eq]
    exact Nat.mod_lt _ (by decide)
  obtain ⟨hst, old, hid⟩ := hlive nEnv (Nat.lt_succ_self _)
  refine ⟨tr, s, hrun, hst, Nat.ne_of_lt hx, ?_, ?_⟩
  · have hne : (s.envs nEnv).envId ≠ 0 := by
      rw [hid]
      exact newEnvId_nEnv_ne_zero old
    unfold envid2env
    rw [if_neg hne]
    dsimp only
    split
    · simp
    · cases s.curenv 0 <;> simp [Nat.ne_of_lt hx]
  · calc (nEnv : ℕ∞) < ((nEnv + 1 : ℕ) : ℕ∞) := by exact_mod_cast Nat.lt_succ_self nEnv
      _ = (Finset.range (nEnv + 1) : Set ℕ).encard := by
          rw [Set.encard_coe_eq_coe_finsetCard, Finset.card_range]
      _ ≤ {x | s.status x ≠ .free}.encard :=
          Set.encard_le_encard fun x hx => (hlive x (by simpa using hx)).1

end Jos
