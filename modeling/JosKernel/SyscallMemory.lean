/-
**What the system calls do to memory.**

The calls that work on areas take `env_lock`, and `pagealloc_lock` around the work on pages. When
both are free, the locks do not matter: the call does to memory what it would do without them, and
they are free afterwards.

Main definitions:

* `Jos.KState.after` — the state after code that worked on memory;
* `Jos.createVm`, `Jos.destroyVm`, `Jos.protectVm`, `Jos.adviseVm` — the calls without the locks.

Main results:

* `Jos.Kern.sysVmaCreate_eq`, `Jos.Kern.sysVmaDestroy_eq`, `Jos.Kern.sysVmaProtect_eq`,
  `Jos.Kern.sysVmaAdvise_eq` — **the calls are the calls without the locks**.
-/

import JosKernel.SyscallLocks

set_option relaxedAutoImplicit false
set_option autoImplicit false

namespace Jos

open LinkedList Outcome

/-! ### The calls without the locks -/

/-- The end of `sys_vma_create`, once there is an area at `spot`. -/
def createEnd (s : Vm) (e new : ℕ) (spot size perm flags : BitVec 32) :
    Except Crash (BitVec 32 × Vm) :=
  if flags &&& mapPopulate ≠ 0 ∧ flags &&& mapHugepages = 0 then do
    let (ok, s) ← vmaPopulate s e spot size perm false
    pure (if ok then spot else -1, s)
  else if flags &&& mapHugepages ≠ 0 then
    pure (spot, s.modSpace e fun sp => sp.modVma new fun v => { v with hps := true })
  else pure (spot, s)

/-- `sys_vma_create(size, perm, flags)`. -/
def createVm (s : Vm) (e : ℕ) (size perm flags : BitVec 32) : Except Crash (BitVec 32 × Vm) :=
  if flags &&& mapHugepages ≠ 0 ∧ size % BitVec.ofNat 32 (pgSize * kb) ≠ 0 then pure (-1, s)
  else do
    let spot ← vmaFindSpot (s.envs e) size
    let (new, s) ← s.onSpace e fun sp => vmaNew sp spot size .anon 0 0 0 (perm ||| pteU)
    match new with
    | .made new => createEnd s e new spot size perm flags
    | _ => pure (-1, s)

/-- `sys_vma_destroy(va, size)`. -/
def destroyVm (s : Vm) (e : ℕ) (va size : BitVec 32) : Except Crash (BitVec 32 × Vm) := do
  let v ← vmaLookup (s.envs e) va
  match v with
  | none => throw .nullDeref
  | some v =>
      if (s.vma e v).hps ∧ ((s.vma e v).len ≠ size ∨ (s.vma e v).va ≠ va) then pure (-1, s)
      else do
        let (r, s) ← vmaSplitLookup s e va size true
        pure (if r.isSome then 0 else -1, s)

/-- The end of `sys_vma_protect`, for the area that the range is now. -/
def protectEnd (s : Vm) (e v : ℕ) (perm : BitVec 32) : Except Crash (BitVec 32 × Vm) := do
  let s ← vmaChangePerm s e v perm
  let (ok, s) ← vmaListMerge s e
  pure (if ok then 1 else 0, s)

/-- `sys_vma_protect(va, size, perm)`. -/
def protectVm (s : Vm) (e : ℕ) (va size perm : BitVec 32) : Except Crash (BitVec 32 × Vm) := do
  let v ← vmaLookup (s.envs e) va
  match v with
  | none => pure (0, s)
  | some v =>
      if (s.vma e v).perm = perm then pure (1, s)
      else do
        let (r, s) ← vmaSplitLookup s e va size false
        match r with
        | none => pure (0, s)
        | some v => protectEnd s e v perm

/-- `sys_vma_advise(va, size, attr)`, once the area `v` has been found. -/
def adviseVm (s : Vm) (e : ℕ) (v : Vma) (va size attr : BitVec 32) :
    Except Crash (BitVec 32 × Vm) :=
  if ¬ vmaSizeCheck va size v then pure (0, s)
  else if attr = 0 then
    if ¬ v.hps then do
      let s ← vmaRemovePages s e va size
      pure (1, s)
    else pure (1, s)
  else if attr = 1 then do
    let (_, s) ← vmaPopulate s e va size v.perm v.hps
    pure (1, s)
  else pure (1, s)

namespace KState

variable {α : Type}

/-- **The state after code that worked on memory**, with the locks `H`. -/
def after (s : KState) (H : Lock → Bool) (r : Except Crash (α × Vm)) : Except Stop (α × KState) :=
  match r with
  | .ok (a, vm) => .ok (a, { s with vm := vm, held := H })
  | .error c => .error (.crash c)

theorem after_eq_ok {s s' : KState} {H : Lock → Bool} {r : Except Crash (α × Vm)} {a : α} :
    s.after H r = .ok (a, s') ↔ ∃ vm, r = .ok (a, vm) ∧ s' = { s with vm := vm, held := H } := by
  cases r with
  | error c => exact ⟨fun h => (nomatch h), fun ⟨_, h, _⟩ => nomatch h⟩
  | ok p =>
      obtain ⟨b, vm⟩ := p
      constructor
      · intro h
        obtain ⟨rfl, rfl⟩ := Prod.mk.inj (Except.ok.inj h)
        exact ⟨vm, rfl, rfl⟩
      · rintro ⟨vm', h, rfl⟩
        obtain ⟨rfl, rfl⟩ := Prod.mk.inj (Except.ok.inj h)
        rfl

/-- A processor on which nothing but memory matters: every lock is free. -/
def ofVm (vm : Vm) : KState where
  vm := vm
  kern := Kernel.init
  held := fun _ => false
  tfs := fun _ => ⟨0, []⟩
  console := Console.boot true
  serialIn := []
  kbdIn := []
  consOut := []

end KState

namespace Kern

variable {α β : Type} {s : KState}

/-! ### Steps of a run -/

section

variable {l : Lock} {a : α} {c : Crash} {vm : Vm}

theorem onVm_ok {f : Vm → Except Crash (α × Vm)} {g : α → Kern β} (h : f s.vm = .ok (a, vm)) :
    (onVm f >>= g) s = g a { s with vm := vm } := by
  change (onVm f s >>= fun r => g r.1 r.2) = _
  rw [onVm, h]
  rfl

theorem onVm_error {f : Vm → Except Crash (α × Vm)} {g : α → Kern β} (h : f s.vm = .error c) :
    (onVm f >>= g) s = .error (.crash c) := by
  change (onVm f s >>= fun r => g r.1 r.2) = _
  rw [onVm, h]
  rfl

theorem inVm_ok {f : Vm → Except Crash Vm} {g : Unit → Kern β} (h : f s.vm = .ok vm) :
    (inVm f >>= g) s = g () { s with vm := vm } := onVm_ok (by rw [h]; rfl)

theorem inVm_error {f : Vm → Except Crash Vm} {g : Unit → Kern β} (h : f s.vm = .error c) :
    (inVm f >>= g) s = .error (.crash c) := onVm_error (by rw [h]; rfl)

/-- Code that is known to work on memory only. -/
theorem after_ok {H : Lock → Bool} {x : Kern α} {g : α → Kern β} {r : Except Crash (α × Vm)}
    (hx : x s = s.after H r) (hr : r = .ok (a, vm)) :
    (x >>= g) s = g a { s with vm := vm, held := H } := by
  change (x s >>= fun p => g p.1 p.2) = _
  rw [hx, hr]
  rfl

theorem after_error {H : Lock → Bool} {x : Kern α} {g : α → Kern β} {r : Except Crash (α × Vm)}
    (hx : x s = s.after H r) (hr : r = .error c) : (x >>= g) s = .error (.crash c) := by
  change (x s >>= fun p => g p.1 p.2) = _
  rw [hx, hr]
  rfl

/-- Work on pages between `lock_pagealloc()` and `unlock_pagealloc()`. -/
theorem locked_after {H : Lock → Bool} {f : Vm → Except Crash (α × Vm)} {g : α → Kern β}
    {k : α → Vm → Except Crash (β × Vm)} (hp : s.held .pagealloc = false)
    (hg : ∀ a vm, g a { s with vm := vm } = s.after H (k a vm)) :
    (spinLock .pagealloc >>= fun _ => onVm f >>= fun a => spinUnlock .pagealloc >>=
      fun _ => g a) s =
      s.after H (f s.vm >>= fun p => k p.1 p.2) := by
  rw [lock_bind hp]
  cases hf : f s.vm with
  | error c => exact onVm_error hf
  | ok p =>
      obtain ⟨a, vm⟩ := p
      have hstep := @onVm_ok α β { s with held := Function.update s.held .pagealloc true } a vm f
        (fun a => spinUnlock .pagealloc >>= fun _ => g a) hf
      exact hstep.trans ((unlock_back hp rfl).trans (hg a vm))

theorem ite_after {H : Lock → Bool} {p : Prop} [Decidable p] {x y : Kern β}
    {r r' : Except Crash (β × Vm)} (hx : p → x s = s.after H r) (hy : ¬ p → y s = s.after H r') :
    (if p then x else y) s = s.after H (if p then r else r') := by
  by_cases h : p
  · rw [if_pos h, if_pos h]
    exact hx h
  · rw [if_neg h, if_neg h]
    exact hy h

end

/-! ### The calls -/

variable {cur : ℕ} {va size perm flags : BitVec 32}

/-- **`vma_split_lookup`.** -/
theorem vmaSplitLookup_eq (henv : s.held .env = true) (hp : s.held .pagealloc = false)
    (vmaRemove : Bool) :
    vmaSplitLookup cur va size vmaRemove s = s.after s.held
      (Jos.vmaSplitLookup s.vm cur va size vmaRemove) := by
  unfold vmaSplitLookup Jos.vmaSplitLookup
  rw [assertLock_bind henv]
  cases hlook : vmaLookup (s.vm.envs cur) va with
  | error c => exact readVm_error hlook
  | ok v =>
      rw [readVm_ok hlook]
      cases v with
      | none => rfl
      | some i =>
          dsimp only
          rw [get_bind]
          refine ite_after (fun _ => rfl) fun _ => ite_after (fun _ => rfl) fun _ =>
            ite_after (fun _ => rfl) fun _ =>
            ite_after (fun _ => rfl) fun _ => ?_
          -- the end of the call is the same in both modes
          have hend : ∀ (vm : Vm) (r : Bool), (inVm
              (fun vm => vmaSplitParts vm cur i (s.vm.vma cur i) va size r) >>= fun _ =>
              (pure (some i) : Kern (Option ℕ))) { s with vm := vm } =
              s.after s.held (vmaSplitParts vm cur i (s.vm.vma cur i) va size r >>= fun vm =>
                pure (some i, vm)) := by
            intro vm r
            cases hparts : vmaSplitParts vm cur i (s.vm.vma cur i) va size r with
            | error c => exact inVm_error hparts
            | ok vm => exact inVm_ok hparts
          cases vmaRemove with
          | false => exact hend s.vm false
          | true =>
              rw [if_pos rfl, if_pos rfl]
              refine (lock_bind hp).trans ?_
              cases hrem : vmaRemoveAlloced s.vm cur i true with
              | error c => exact onVm_error hrem
              | ok p =>
                  obtain ⟨ok, vm⟩ := p
                  obtain rfl := vmaRemoveAlloced_found hlook hrem
                  exact (onVm_ok hrem).trans ((unlock_back hp rfl).trans (hend vm true))

/-- **`sys_vma_destroy`.** -/
theorem sysVmaDestroy_eq (henv : s.held .env = false) (hp : s.held .pagealloc = false) :
    sysVmaDestroy cur va size s = s.after s.held (destroyVm s.vm cur va size) := by
  have hp' : Function.update s.held .env true .pagealloc = false := by
    rw [Function.update_of_ne (by decide)]
    exact hp
  unfold sysVmaDestroy destroyVm
  rw [lock_bind henv]
  cases hlook : vmaLookup (s.vm.envs cur) va with
  | error c => exact readVm_error hlook
  | ok v =>
      refine (readVm_ok hlook).trans ?_
      cases v with
      | none => rfl
      | some i =>
          dsimp only
          rw [get_bind]
          refine ite_after (fun _ => ?_) fun _ => ?_
          · exact unlock_back henv rfl
          · have hsplit :=
              @vmaSplitLookup_eq { s with held := Function.update s.held .env true } cur va size
              (Function.update_self Lock.env true s.held) hp' true
            cases hr : Jos.vmaSplitLookup s.vm cur va size true with
            | error c => exact after_error hsplit hr
            | ok p =>
                obtain ⟨r, vm⟩ := p
                refine (after_ok hsplit hr).trans ?_
                cases r with
                | none => exact unlock_back henv rfl
                | some i => exact unlock_back henv rfl

/-- **`sys_vma_protect`.** -/
theorem sysVmaProtect_eq (henv : s.held .env = false) (hp : s.held .pagealloc = false) :
    sysVmaProtect cur va size perm s = s.after s.held (protectVm s.vm cur va size perm) := by
  have hp' : Function.update s.held .env true .pagealloc = false := by
    rw [Function.update_of_ne (by decide)]
    exact hp
  unfold sysVmaProtect protectVm
  rw [lock_bind henv]
  cases hlook : vmaLookup (s.vm.envs cur) va with
  | error c => exact readVm_error hlook
  | ok v =>
      refine (readVm_ok hlook).trans ?_
      cases v with
      | none => exact unlock_back henv rfl
      | some i =>
          dsimp only
          rw [get_bind]
          refine ite_after (fun _ => unlock_back henv rfl) fun _ => ?_
          have hsplit :=
            @vmaSplitLookup_eq { s with held := Function.update s.held .env true } cur va size
            (Function.update_self Lock.env true s.held) hp' false
          cases hr : Jos.vmaSplitLookup s.vm cur va size false with
          | error c => exact after_error hsplit hr
          | ok p =>
              obtain ⟨r, vm⟩ := p
              refine (after_ok hsplit hr).trans ?_
              cases r with
              | none => exact unlock_back henv rfl
              | some v =>
                  change _ = s.after s.held (protectEnd vm cur v perm)
                  unfold protectEnd
                  cases hchange : vmaChangePerm vm cur v perm with
                  | error c => exact inVm_error hchange
                  | ok vm₁ =>
                      refine (inVm_ok hchange).trans ?_
                      cases hmerge : vmaListMerge vm₁ cur with
                      | error c =>
                          refine (onVm_error hmerge).trans ?_
                          change _ = s.after s.held (vmaListMerge vm₁ cur >>= _)
                          rw [hmerge]
                          rfl
                      | ok q =>
                          refine (onVm_ok hmerge).trans ((unlock_back henv rfl).trans ?_)
                          change _ = s.after s.held (vmaListMerge vm₁ cur >>= _)
                          rw [hmerge]
                          rfl

/-- The end of `sys_vma_create`. -/
theorem populate_after {hp : Bool} {g : Bool → Kern β} (hpa : s.held .pagealloc = false) :
    (populate cur va size perm hp >>= g) s =
      match vmaPopulate s.vm cur va size perm hp with
      | .ok (ok, vm) => g ok { s with vm := vm }
      | .error c => .error (.crash c) := by
  change (populate cur va size perm hp s >>= fun r => g r.1 r.2) = _
  have hrun : populate cur va size perm hp s = s.after s.held
      (vmaPopulate s.vm cur va size perm hp) := by
    refine (locked_after (H := s.held) (g := fun ok => pure ok) (k := fun ok vm => pure (ok, vm))
      hpa fun _ _ => rfl).trans ?_
    exact congrArg (s.after s.held) (bind_pure _)
  rw [hrun]
  cases vmaPopulate s.vm cur va size perm hp with
  | error c => rfl
  | ok p => rfl

/-- **`sys_vma_create`.** -/
theorem sysVmaCreate_eq (henv : s.held .env = false) (hp : s.held .pagealloc = false) :
    sysVmaCreate cur size perm flags s = s.after s.held (createVm s.vm cur size perm flags) := by
  have hp' : Function.update s.held .env true .pagealloc = false := by
    rw [Function.update_of_ne (by decide)]
    exact hp
  unfold sysVmaCreate createVm
  rw [lock_bind henv]
  refine ite_after (fun _ => unlock_back henv rfl) fun _ => ?_
  cases hspot : vmaFindSpot (s.vm.envs cur) size with
  | error c => exact readVm_error hspot
  | ok spot =>
      refine (readVm_ok hspot).trans ?_
      cases hnew : s.vm.onSpace cur fun sp => vmaNew sp spot size .anon 0 0 0 (perm ||| pteU) with
      | error c =>
          refine (onVm_error hnew).trans ?_
          change _ = s.after s.held
            ((s.vm.onSpace cur fun sp => vmaNew sp spot size .anon 0 0 0 (perm ||| pteU)) >>= _)
          rw [hnew]
          rfl
      | ok p =>
          obtain ⟨new, vm⟩ := p
          refine (onVm_ok hnew).trans ?_
          change _ = s.after s.held
            ((s.vm.onSpace cur fun sp => vmaNew sp spot size .anon 0 0 0 (perm ||| pteU)) >>= _)
          rw [hnew]
          cases new with
          | outOfMemory => exact unlock_back henv rfl
          | failed => exact unlock_back henv rfl
          | made new =>
              change _ = s.after s.held (createEnd vm cur new spot size perm flags)
              unfold createEnd
              have hnever : ¬ flags &&& mapPopulate &&& mapHugepages ≠ 0 := by
                rw [BitVec.and_assoc]
                exact not_not_intro BitVec.and_zero
              refine ite_after (fun _ => ?_) fun _ => ?_
              · have hrun := @populate_after (BitVec 32)
                  { s with vm := vm, held := Function.update s.held .env true } cur spot size perm
                  false
                refine (hrun hp').trans ?_
                dsimp only
                cases hpop : vmaPopulate vm cur spot size perm false with
                | error c => rfl
                | ok q =>
                    obtain ⟨ok, vm₁⟩ := q
                    cases ok with
                    | false => exact unlock_back henv rfl
                    | true => exact unlock_back henv rfl
              · rw [if_neg hnever]
                refine ite_after (fun _ => ?_) fun _ => unlock_back henv rfl
                change (spinUnlock .env >>= fun _ => pure spot : Kern (BitVec 32))
                  { s with
                    vm := vm.modSpace cur fun sp => sp.modVma new fun v => { v with hps := true }
                    held := Function.update s.held .env true } = _
                exact unlock_back henv rfl

/-- **`sys_vma_advise`** for an address in the area `i`. -/
theorem sysVmaAdvise_eq {i : ℕ} {attr : BitVec 32} (henv : s.held .env = false)
    (hp : s.held .pagealloc = false) (hlook : vmaLookup (s.vm.envs cur) va = .ok (some i)) :
    sysVmaAdvise cur va size attr s = s.after s.held
      (adviseVm s.vm cur (s.vm.vma cur i) va size attr) := by
  have hp' : Function.update s.held .env true .pagealloc = false := by
    rw [Function.update_of_ne (by decide)]
    exact hp
  unfold sysVmaAdvise adviseVm
  rw [lock_bind henv]
  refine (readVm_ok hlook).trans ?_
  dsimp only
  rw [get_bind]
  refine ite_after (fun _ => unlock_back henv rfl) fun _ => ?_
  by_cases hzero : attr = 0
  · subst hzero
    rw [if_pos rfl, if_pos rfl]
    refine ite_after (fun _ => ?_) fun _ => unlock_back henv rfl
    refine (locked_after (s := { s with held := Function.update s.held .env true }) (H := s.held)
      (k := fun _ vm => pure (1, vm)) hp'
      fun _ vm => ?_).trans ?_
    · exact unlock_back henv rfl
    · change s.after s.held ((vmaRemovePages s.vm cur va size >>= fun vm => pure ((), vm)) >>=
        fun p => pure (1, p.2)) = _
      rw [bind_assoc]
      rfl
  · rw [if_neg hzero, if_neg hzero]
    refine ite_after (fun _ => ?_) fun _ => unlock_back henv rfl
    refine (locked_after (s := { s with held := Function.update s.held .env true }) (H := s.held)
      (k := fun _ vm => pure (1, vm)) hp'
      fun _ vm => ?_).trans ?_
    · exact unlock_back henv rfl
    · rfl

end Kern

end Jos
