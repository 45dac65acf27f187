/-
**Memory behind store buffers.**

The writes of a processor wait in a buffer of its own and come to the memory one by one, in their
order; meanwhile only the processor itself reads them. A locked instruction waits until the buffer
is empty and then reads and writes the memory at once. What a processor reads is in general not what
another one wrote last. It is for an address that only one processor writes at a time, if the
address is handed over with an empty buffer: then the address has a value, and whose it is can be
said.

Main definitions:

* `StoreBuffer.Memory` — the memory and the buffers; `read`, `write`, `drain` and `swap` are what
  can happen to it;
* `StoreBuffer.Memory.Holds` — an address has a value, and belongs to one processor or to none;
* `StoreBuffer.Memory.Among` — nothing but certain values is written, or waits to be written, at an
  address.

Main results:

* `StoreBuffer.Memory.Holds.write`, `StoreBuffer.Memory.Holds.drain`,
  `StoreBuffer.Memory.Holds.swap` — the operations on such an address, and `_ne` on another one;
* `StoreBuffer.Memory.Holds.take`, `StoreBuffer.Memory.Holds.give` — the address changes hands;
* `StoreBuffer.Memory.Among.read` — what anybody may read at an address.
-/

import Mathlib.Logic.Function.Basic
import Mathlib.Tactic.Common

set_option relaxedAutoImplicit false
set_option autoImplicit false

namespace StoreBuffer

variable {Cpu Addr Val : Type*}

/-- **The memory**, and for each processor the writes that still wait, the oldest first. -/
structure Memory (Cpu Addr Val : Type*) where
  ram : Addr → Val
  buf : Cpu → List (Addr × Val)

variable [DecidableEq Addr]

/-- The memory after some writes. -/
def replay (m : Addr → Val) : List (Addr × Val) → Addr → Val
  | [] => m
  | w :: b => replay (Function.update m w.1 w.2) b

@[simp] theorem replay_nil (m : Addr → Val) : replay m [] = m := rfl

@[simp] theorem replay_cons (m : Addr → Val) (w : Addr × Val) (b : List (Addr × Val)) :
    replay m (w :: b) = replay (Function.update m w.1 w.2) b := rfl

theorem replay_append (m : Addr → Val) (b b' : List (Addr × Val)) :
    replay m (b ++ b') = replay (replay m b) b' := by
  induction b generalizing m with
  | nil => rfl
  | cons w b ih => exact ih _

/-- The address alone matters. -/
theorem replay_congr {m m' : Addr → Val} {a : Addr} (b : List (Addr × Val)) (h : m a = m' a) :
    replay m b a = replay m' b a := by
  induction b generalizing m m' with
  | nil => exact h
  | cons w b ih =>
      refine ih ?_
      rw [Function.update_apply, Function.update_apply, h]

theorem replay_of_ne {a : Addr} {b : List (Addr × Val)} (m : Addr → Val) (h : ∀ w ∈ b, w.1 ≠ a) :
    replay m b a = m a := by
  induction b generalizing m with
  | nil => rfl
  | cons w b ih =>
      rw [replay_cons, ih _ fun x hx => h x (by simp [hx])]
      exact Function.update_of_ne (h w (by simp)).symm _ _

/-- What is found at an address was there before or was written. -/
theorem replay_among {P : Val → Prop} {a : Addr} {b : List (Addr × Val)} {m : Addr → Val}
    (hm : P (m a)) (hb : ∀ w ∈ b, w.1 = a → P w.2) : P (replay m b a) := by
  induction b generalizing m with
  | nil => exact hm
  | cons w b ih =>
      refine ih ?_ fun x hx => hb x (by simp [hx])
      rw [Function.update_apply]
      split
      · next ha => exact hb w (by simp) ha.symm
      · exact hm

namespace Memory

variable {s : Memory Cpu Addr Val} {c d : Cpu} {a b : Addr} {v w : Val}

/-! ### What can happen -/

/-- The memory at first. -/
def boot (ram : Addr → Val) : Memory Cpu Addr Val := ⟨ram, fun _ => []⟩

/-- **What a processor reads**: its own last write, if that waits, or else the memory. -/
def read (s : Memory Cpu Addr Val) (c : Cpu) (a : Addr) : Val := replay s.ram (s.buf c) a

/-- A locked write, which goes to the memory at once. -/
def swap (s : Memory Cpu Addr Val) (a : Addr) (v : Val) : Memory Cpu Addr Val :=
  { s with ram := Function.update s.ram a v }

theorem read_of_nil (h : s.buf c = []) (a : Addr) : s.read c a = s.ram a := by
  rw [read, h, replay_nil]

theorem read_swap_of_ne (h : b ≠ a) : (s.swap a v).read d b = s.read d b :=
  replay_congr _ (Function.update_of_ne h _ _)

section

variable [DecidableEq Cpu]

/-- A write waits. -/
def write (s : Memory Cpu Addr Val) (c : Cpu) (a : Addr) (v : Val) : Memory Cpu Addr Val :=
  { s with buf := Function.update s.buf c (s.buf c ++ [(a, v)]) }

/-- The oldest write of a processor comes to the memory. -/
def drain (s : Memory Cpu Addr Val) (c : Cpu) : Memory Cpu Addr Val :=
  match s.buf c with
  | [] => s
  | w :: b => ⟨Function.update s.ram w.1 w.2, Function.update s.buf c b⟩

theorem drain_nil (h : s.buf c = []) : s.drain c = s := by rw [drain, h]

theorem drain_cons {x : Addr × Val} {l : List (Addr × Val)} (h : s.buf c = x :: l) :
    s.drain c = ⟨Function.update s.ram x.1 x.2, Function.update s.buf c l⟩ := by rw [drain, h]

omit [DecidableEq Addr] in
@[simp] theorem write_buf_self (s : Memory Cpu Addr Val) (c : Cpu) (a : Addr) (v : Val) :
    (s.write c a v).buf c = s.buf c ++ [(a, v)] := Function.update_self ..

omit [DecidableEq Addr] in
theorem write_buf_of_ne (h : d ≠ c) : (s.write c a v).buf d = s.buf d := Function.update_of_ne h _ _

@[simp] theorem read_write_self (s : Memory Cpu Addr Val) (c : Cpu) (a : Addr) (v : Val) :
    (s.write c a v).read c a = v := by
  rw [read, write_buf_self, replay_append, replay_cons, replay_nil, Function.update_self]

theorem read_write_of_ne (h : b ≠ a) : (s.write c a v).read d b = s.read d b := by
  by_cases hd : d = c
  · subst hd
    rw [read, write_buf_self, replay_append, replay_cons, replay_nil, Function.update_of_ne h]
    rfl
  · rw [read, write_buf_of_ne hd]
    rfl

/-- A processor does not see its writes come to the memory. -/
@[simp] theorem read_drain_self (s : Memory Cpu Addr Val) (c : Cpu) (a : Addr) :
    (s.drain c).read c a = s.read c a := by
  cases hbuf : s.buf c with
  | nil => rw [drain_nil hbuf]
  | cons x l =>
      rw [read, read, hbuf, replay_cons, drain_cons hbuf]
      dsimp only
      rw [Function.update_self]

/-- What waits after something has come to the memory has waited before. -/
theorem mem_buf_drain {x : Addr × Val} (h : x ∈ (s.drain c).buf d) : x ∈ s.buf d := by
  cases hbuf : s.buf c with
  | nil => rwa [drain_nil hbuf] at h
  | cons y l =>
      rw [drain_cons hbuf] at h
      dsimp only at h
      rw [Function.update_apply] at h
      split at h
      · next hd =>
          subst hd
          rw [hbuf]
          exact List.mem_cons_of_mem _ h
      · exact h

theorem drain_ram (s : Memory Cpu Addr Val) (c : Cpu) (a : Addr) :
    (s.drain c).ram a = s.ram a ∨ (a, (s.drain c).ram a) ∈ s.buf c := by
  cases hbuf : s.buf c with
  | nil => exact .inl (by rw [drain_nil hbuf])
  | cons x l =>
      rw [drain_cons hbuf]
      dsimp only
      rw [Function.update_apply]
      split
      · next ha => exact .inr (by simp [ha])
      · exact .inl rfl

omit [DecidableEq Addr] in
theorem mem_buf_write {x : Addr × Val} (h : x ∈ (s.write c a v).buf d) :
    x ∈ s.buf d ∨ d = c ∧ x = (a, v) := by
  by_cases hd : d = c
  · subst hd
    rw [write_buf_self] at h
    simpa using h
  · rw [write_buf_of_ne hd] at h
    exact .inl h

end

/-! ### The values of an address -/

/-- **Only such values** are at an address or wait to be written there. -/
structure Among (s : Memory Cpu Addr Val) (a : Addr) (P : Val → Prop) : Prop where
  ram : P (s.ram a)
  buf : ∀ c, ∀ x ∈ s.buf c, x.1 = a → P x.2

namespace Among

variable {P Q : Val → Prop}

omit [DecidableEq Addr] in
theorem mono (h : s.Among a P) (hle : ∀ v, P v → Q v) : s.Among a Q :=
  ⟨hle _ h.ram, fun c x hx ha => hle _ (h.buf c x hx ha)⟩

/-- **What anybody reads.** -/
theorem read (h : s.Among a P) (c : Cpu) : P (s.read c a) := replay_among h.ram (h.buf c)

theorem swap_ne (h : s.Among a P) (hb : b ≠ a) (v : Val) : (s.swap b v).Among a P := by
  refine ⟨?_, h.buf⟩
  rw [swap]
  dsimp only
  rw [Function.update_of_ne hb.symm]
  exact h.ram

variable [DecidableEq Cpu]

omit [DecidableEq Addr] in
theorem write (h : s.Among a P) (c : Cpu) (hv : P v) : (s.write c a v).Among a P := by
  refine ⟨h.ram, fun d x hx ha => ?_⟩
  rcases mem_buf_write hx with hx | ⟨-, rfl⟩
  · exact h.buf d x hx ha
  · exact hv

omit [DecidableEq Addr] in
theorem write_ne (h : s.Among a P) (c : Cpu) (hb : b ≠ a) (v : Val) :
    (s.write c b v).Among a P := by
  refine ⟨h.ram, fun d x hx ha => ?_⟩
  rcases mem_buf_write hx with hx | ⟨-, rfl⟩
  · exact h.buf d x hx ha
  · exact absurd ha hb

theorem drain (h : s.Among a P) (c : Cpu) : (s.drain c).Among a P := by
  refine ⟨?_, fun d x hx => h.buf d x (mem_buf_drain hx)⟩
  rcases drain_ram s c a with hr | hr
  · rw [hr]
    exact h.ram
  · exact h.buf c _ hr rfl

end Among

/-! ### The value of an address -/

/-- **An address has a value**: besides its owner no processor has a write to it waiting, and the
owner reads the value; without an owner everybody does. -/
structure Holds (s : Memory Cpu Addr Val) (o : Option Cpu) (a : Addr) (v : Val) : Prop where
  quiet : ∀ c, o ≠ some c → ∀ x ∈ s.buf c, x.1 ≠ a
  read : ∀ c, o = some c → s.read c a = v
  ram : o = none → s.ram a = v

namespace Holds

variable {o : Option Cpu}

theorem boot (ram : Addr → Val) (a : Addr) :
    (Memory.boot ram : Memory Cpu Addr Val).Holds none a (ram a) :=
  ⟨fun _ _ _ hx => by simp [Memory.boot] at hx, fun _ h => by simp at h, fun _ => rfl⟩

/-- Without an owner every processor reads the value. -/
theorem read_none (h : s.Holds none a v) (c : Cpu) : s.read c a = v := by
  rw [Memory.read, replay_of_ne _ (h.quiet c (by simp)), h.ram rfl]

/-- A locked write at an address without an owner. -/
theorem swap (h : s.Holds none a v) (w : Val) : (s.swap a w).Holds none a w :=
  ⟨h.quiet, fun _ hd => by simp at hd, fun _ => Function.update_self ..⟩

theorem swap_ne (h : s.Holds o a v) (hb : b ≠ a) (w : Val) : (s.swap b w).Holds o a v := by
  refine ⟨h.quiet, fun d hd => ?_, fun hn => ?_⟩
  · rw [read_swap_of_ne hb.symm, h.read d hd]
  · rw [← h.ram hn]
    exact Function.update_of_ne hb.symm _ _

/-- **A processor takes an address** that has no owner. -/
theorem take (h : s.Holds none a v) (c : Cpu) : s.Holds (some c) a v :=
  ⟨fun d _ => h.quiet d (by simp), fun d _ => h.read_none d, fun hn => by simp at hn⟩

/-- **A processor gives an address back**, with nothing waiting. -/
theorem give (h : s.Holds (some c) a v) (hc : s.buf c = []) : s.Holds none a v := by
  refine ⟨fun d _ x hx => ?_, fun d hd => by simp at hd, fun _ => ?_⟩
  · by_cases hd : d = c
    · subst hd
      simp [hc] at hx
    · exact h.quiet d (by simpa using Ne.symm hd) x hx
  · rw [← read_of_nil hc, h.read c rfl]

/-- Nothing else than the value is at an address without an owner. -/
theorem among (h : s.Holds none a v) : s.Among a (· = v) :=
  ⟨h.ram rfl, fun c x hx ha => absurd ha (h.quiet c (by simp) x hx)⟩

variable [DecidableEq Cpu]

theorem write (h : s.Holds (some c) a v) (w : Val) : (s.write c a w).Holds (some c) a w := by
  refine ⟨fun d hd x hx => ?_, fun d hd => ?_, fun hn => by simp at hn⟩
  · rcases mem_buf_write hx with hx | ⟨rfl, -⟩
    · exact h.quiet d hd x hx
    · exact absurd rfl hd
  · rw [Option.some_inj] at hd
    subst hd
    exact read_write_self ..

theorem write_ne (h : s.Holds o a v) (hb : b ≠ a) (c : Cpu) (w : Val) :
    (s.write c b w).Holds o a v := by
  refine ⟨fun d hd x hx => ?_, fun d hd => ?_, h.ram⟩
  · rcases mem_buf_write hx with hx | ⟨-, rfl⟩
    · exact h.quiet d hd x hx
    · exact hb
  · rw [read_write_of_ne hb.symm, h.read d hd]

theorem drain (h : s.Holds o a v) (c : Cpu) : (s.drain c).Holds o a v := by
  refine ⟨fun d hd x hx => h.quiet d hd x (mem_buf_drain hx), fun d hd => ?_, fun hn => ?_⟩
  · by_cases hc : d = c
    · subst hc
      rw [read_drain_self, h.read d hd]
    · -- the write that comes to the memory is another processor's
      rw [← h.read d hd]
      have hne : o ≠ some c := by
        rw [hd]
        simpa using hc
      cases hbuf : s.buf c with
      | nil => rw [drain_nil hbuf]
      | cons x l =>
          have hx : x.1 ≠ a := h.quiet c hne x (by simp [hbuf])
          rw [drain_cons hbuf, Memory.read, Memory.read]
          dsimp only
          rw [Function.update_of_ne hc]
          exact replay_congr _ (Function.update_of_ne hx.symm _ _)
  · rcases drain_ram s c a with hr | hr
    · rw [hr, h.ram hn]
    · exact absurd rfl (h.quiet c (by simp [hn]) _ hr)

end Holds

end Memory

end StoreBuffer
