/-
**Console input.**

The interrupt routines of the keyboard and of the serial port put characters into one ring of 512
bytes, and `cons_getc` polls both devices before it takes one out. The ring does not know whether it
is full, and so it holds 511 characters at most: the next one makes it empty.

Main definitions:

* `Jos.Cons`, `Jos.Cons.put` — the ring;
* `Jos.consIntr`, `Jos.Console.kbdIntr`, `Jos.Console.serialIntr`, `Jos.Console.consGetc` — the
  routines;
* `Jos.ConsoleOp` — the calls, with the bytes that the devices have at that time;
* `Jos.ConsoleRun` — the console, what was typed and what was handed out.

Main results:

* `Jos.consIntr_serial`, `Jos.consIntr_kbd` — the routines put what was typed into the ring;
* `Jos.ConsoleInv.step` — one call;
* `Jos.console_delivers` — **in every run the characters come out in order, and nothing is lost but
  whole rings**.
-/

import JosKernel.Keyboard
import JosKernel.LabelledRun
import JosKernel.RingQueue

set_option relaxedAutoImplicit false
set_option autoImplicit false

namespace Jos

open LabelledRun RingQueue

/-! ### The ring -/

def consBufSize : ℕ := 512

/-- The console input buffer. -/
structure Cons where
  buf : ℕ → BitVec 8
  rpos : ℕ
  wpos : ℕ

namespace Cons

/-- `cons.buf[cons.wpos++] = c`, and around. -/
def put (s : Cons) (c : BitVec 8) : Cons :=
  let wpos := s.wpos + 1
  { s with buf := Function.update s.buf s.wpos c, wpos := if wpos = consBufSize then 0 else wpos }

/-- The end of `cons_getc`. -/
def get (s : Cons) : BitVec 8 × Cons :=
  if s.rpos ≠ s.wpos then
    let c := s.buf s.rpos
    let rpos := s.rpos + 1
    (c, { s with rpos := if rpos = consBufSize then 0 else rpos })
  else (0, s)

/-- The characters that are waiting. -/
def Waiting (s : Cons) (q : List (BitVec 8)) : Prop := Holds consBufSize s.buf s.rpos s.wpos q

variable {s : Cons} {q : List (BitVec 8)}

theorem Waiting.put (h : s.Waiting q) (c : BitVec 8) : (s.put c).Waiting (push consBufSize q c) :=
  h.push c

theorem Waiting.put_all (h : s.Waiting q) (cs : List (BitVec 8)) :
    (cs.foldl Cons.put s).Waiting (cs.foldl (push consBufSize) q) := by
  induction cs generalizing s q with
  | nil => exact h
  | cons c cs ih => exact ih (h.put c)

theorem Waiting.get_nil (h : s.Waiting []) : s.get = (0, s) :=
  if_neg (not_not_intro (h.empty_iff.2 rfl))

theorem Waiting.get_cons {c : BitVec 8} (h : s.Waiting (c :: q)) :
    s.get.1 = c ∧ s.get.2.Waiting q := by
  have hne : s.rpos ≠ s.wpos := fun hc => List.cons_ne_nil c q (h.empty_iff.1 hc)
  obtain ⟨hc, hq⟩ := h.pop
  rw [get, if_pos hne]
  exact ⟨hc, hq⟩

end Cons

/-! ### The routines -/

/-- **`cons_intr(proc)`**, for the bytes that the device has: `proc` takes one each time, and
returns -1 when there are no more. -/
def consIntr {σ : Type} (proc : σ → BitVec 8 → BitVec 8 × σ) : σ → List (BitVec 8) → Cons → σ × Cons
  | d, [], s => (d, s)
  | d, data :: ds, s =>
      let (c, d) := proc d data
      if c = 0#8 then consIntr proc d ds s else consIntr proc d ds (s.put c)

/-- The console: the ring, the word of the keyboard, and whether there is a serial port. -/
structure Console where
  cons : Cons
  shift : BitVec 32
  serialExists : Bool

namespace Console

/-- **`kbd_intr()`.** -/
def kbdIntr (x : Console) (ds : List (BitVec 8)) : Console :=
  let (shift, cons) := consIntr (fun shift data =>
    ((kbdProcData shift data).c, (kbdProcData shift data).shift)) x.shift ds x.cons
  { x with cons := cons, shift := shift }

/-- **`serial_intr()`.** -/
def serialIntr (x : Console) (ds : List (BitVec 8)) : Console :=
  if x.serialExists then { x with cons := (consIntr (fun _ data => (data, ())) () ds x.cons).2 }
    else x

/-- **`cons_getc()`**, which polls the devices first. -/
def consGetc (x : Console) (serial kbd : List (BitVec 8)) : BitVec 8 × Console :=
  let x := (x.serialIntr serial).kbdIntr kbd
  (x.cons.get.1, { x with cons := x.cons.get.2 })

/-- The console at first: `cons` and `shift` are zero. -/
def boot (serialExists : Bool) : Console := ⟨⟨fun _ => 0, 0, 0⟩, 0, serialExists⟩

end Console

/-! ### Calls -/

/-- **A call**, with the bytes that the devices have by then. -/
inductive ConsoleOp
  | kbdIntr (ds : List (BitVec 8))
  | serialIntr (ds : List (BitVec 8))
  | consGetc (serial kbd : List (BitVec 8))
  deriving DecidableEq, Repr

/-- **The console**, the bytes of the keyboard so far, the characters typed, and those handed
out. -/
structure ConsoleRun where
  console : Console
  kbd : List (BitVec 8)
  typed : List (BitVec 8)
  got : List (BitVec 8)

namespace ConsoleOp

/-- The bytes of the keyboard in a call. -/
def kbd : ConsoleOp → List (BitVec 8)
  | kbdIntr ds => ds
  | serialIntr _ => []
  | consGetc _ ds => ds

/-- The bytes of the serial port in a call. -/
def serial : ConsoleOp → List (BitVec 8)
  | kbdIntr _ => []
  | serialIntr ds => ds
  | consGetc ds _ => ds

/-- **What is typed by a call**, after bytes of the keyboard: what comes from the serial port, and
the characters of the keys. -/
def typed (x : ConsoleRun) (c : ConsoleOp) : List (BitVec 8) :=
  (if x.console.serialExists then c.serial.filter (· ≠ 0#8) else []) ++
    typedAfter (keyEvents false x.kbd) (keyEvents (escaped false x.kbd) c.kbd)

/-- The console after a call, and the character that it returns. -/
def exec (x : Console) : ConsoleOp → Option (BitVec 8) × Console
  | kbdIntr ds => (none, x.kbdIntr ds)
  | serialIntr ds => (none, x.serialIntr ds)
  | consGetc serial kbd => ((x.consGetc serial kbd).1, (x.consGetc serial kbd).2)

/-- **One call**; `cons_getc` returns 0 if there is no character. -/
def Step (x : ConsoleRun) (c : ConsoleOp) (y : ConsoleRun) : Prop :=
  y = ⟨(c.exec x.console).2, x.kbd ++ c.kbd, x.typed ++ c.typed x,
    x.got ++ (c.exec x.console).1.toList.filter (· ≠ 0#8)⟩

/-- **There is room** for what is typed. -/
def Fits (x : ConsoleRun) (c : ConsoleOp) : Prop :=
  x.typed.length + (c.typed x).length < x.got.length + consBufSize

end ConsoleOp

instance ConsoleOp.decidableFits (x : ConsoleRun) (c : ConsoleOp) : Decidable (c.Fits x) :=
  inferInstanceAs (Decidable (_ < _))

/-- The console at first. -/
def ConsoleRun.boot (serialExists : Bool) : ConsoleRun := ⟨Console.boot serialExists, [], [], []⟩

/-! ### What the routines put into the ring -/

/-- **The serial port.** -/
theorem consIntr_serial (ds : List (BitVec 8)) (s : Cons) :
    (consIntr (fun (_ : Unit) data => (data, ())) () ds s).2 =
      (ds.filter (· ≠ 0#8)).foldl Cons.put s := by
  induction ds generalizing s with
  | nil => rfl
  | cons data ds ih =>
      rw [consIntr]
      by_cases hc : data = 0#8
      · simp [hc, ih]
      · simp [hc, ih]

/-- **The keyboard.** -/
theorem consIntr_kbd (w : BitVec 32) (ds : List (BitVec 8)) (s : Cons) :
    consIntr (fun w data => ((kbdProcData w data).c, (kbdProcData w data).shift)) w ds s =
      (kbdWord w ds, (kbdTyped w ds).foldl Cons.put s) := by
  induction ds generalizing w s with
  | nil => rfl
  | cons data ds ih =>
      rw [consIntr, kbdTyped]
      by_cases hc : (kbdProcData w data).c = 0#8
      · simp [hc, ih, kbdWord]
      · simp [hc, ih, kbdWord]

theorem keyEvents_append (esc : Bool) (ds ds' : List (BitVec 8)) :
    keyEvents esc (ds ++ ds') = keyEvents esc ds ++ keyEvents (escaped esc ds) ds' := by
  induction ds generalizing esc with
  | nil => rfl
  | cons data ds ih =>
      rw [List.cons_append, keyEvents_cons, ih, keyEvents_cons esc data ds, List.append_assoc,
        escaped, escaped, List.foldl_cons]

theorem escaped_append (esc : Bool) (ds ds' : List (BitVec 8)) :
    escaped esc (ds ++ ds') = escaped (escaped esc ds) ds' :=
  List.foldl_append ..

/-- No character in the ring is 0. -/
theorem typedAfter_ne_zero {c : BitVec 8} :
    ∀ {es' es : List KeyEvent}, c ∈ typedAfter es es' → c ≠ 0#8 := by
  intro es'
  induction es' with
  | nil => simp [typedAfter]
  | cons e es' ih =>
      intro es hc
      rw [typedAfter] at hc
      split at hc
      · exact ih hc
      · next hne =>
          rcases List.mem_cons.1 hc with rfl | hc
          · exact hne
          · exact ih hc

theorem mem_push_all {n : ℕ} {c : BitVec 8} {cs q : List (BitVec 8)} (h : c ∈ cs.foldl (push n) q) :
    c ∈ q ∨ c ∈ cs := by
  induction cs generalizing q with
  | nil => exact Or.inl h
  | cons x cs ih =>
      rcases ih h with hc | hc
      · unfold push at hc
        split at hc
        · simp at hc
        · rcases List.mem_append.1 hc with hc | hc
          · exact Or.inl hc
          · exact Or.inr (by simp_all)
      · exact Or.inr (List.mem_cons_of_mem _ hc)

/-! ### Runs -/

/-- **The state of a run** after `k` losses, with `q` waiting. -/
structure ConsoleInv (x : ConsoleRun) (k : ℕ) (q : List (BitVec 8)) : Prop where
  waiting : x.console.cons.Waiting q
  keys : KbdState x.console.shift (escaped false x.kbd) (keyEvents false x.kbd)
  delivers : Delivers consBufSize k x.typed x.got q
  chars : ∀ c ∈ q, c ≠ 0#8

theorem ConsoleInv.boot (serialExists : Bool) : ConsoleInv (ConsoleRun.boot serialExists) 0 [] where
  waiting := Holds.nil (Nat.succ_pos 511) _
  keys := KbdState.boot
  delivers := Delivers.nil _
  chars := by simp

/-- **The polling of a call**: what is typed is put into the ring. -/
theorem ConsoleInv.poll {x : ConsoleRun} {k : ℕ} {q : List (BitVec 8)} (h : ConsoleInv x k q)
    (c : ConsoleOp) :
    (x.console.serialIntr c.serial).kbdIntr c.kbd =
      { x.console with
        cons := (c.typed x).foldl Cons.put x.console.cons,
        shift := kbdWord x.console.shift c.kbd } := by
  obtain ⟨htyped, -⟩ := h.keys.run c.kbd
  rw [Console.kbdIntr, consIntr_kbd, ConsoleOp.typed, List.foldl_append, Console.serialIntr]
  cases hex : x.console.serialExists with
  | false => simp [htyped, hex]
  | true => simp [htyped, hex, consIntr_serial]

theorem ConsoleOp.typed_ne_zero {x : ConsoleRun} {c : ConsoleOp} {b : BitVec 8}
    (hb : b ∈ c.typed x) : b ≠ 0#8 := by
  rw [ConsoleOp.typed] at hb
  rcases List.mem_append.1 hb with hb | hb
  · split at hb
    · simpa using (List.mem_filter.1 hb).2
    · simp at hb
  · exact typedAfter_ne_zero hb

/-- The run after the polling of a call. -/
def ConsoleRun.polled (x : ConsoleRun) (c : ConsoleOp) : ConsoleRun :=
  ⟨(x.console.serialIntr c.serial).kbdIntr c.kbd, x.kbd ++ c.kbd, x.typed ++ c.typed x, x.got⟩

theorem ConsoleInv.polled {x : ConsoleRun} {k : ℕ} {q : List (BitVec 8)} (h : ConsoleInv x k q)
    (c : ConsoleOp) :
    ∃ k' q', k ≤ k' ∧ ConsoleInv (x.polled c) k' q' ∧ (k = 0 → (k' = 0 ↔ c.Fits x)) := by
  obtain ⟨k', hle, hdel, hiff⟩ := h.delivers.push_all h.waiting.room (c.typed x)
  refine ⟨k', _, hle, ⟨?_, ?_, hdel, fun b hb => ?_⟩, ?_⟩
  · rw [ConsoleRun.polled, h.poll c]
    exact h.waiting.put_all _
  · rw [ConsoleRun.polled, h.poll c, escaped_append, keyEvents_append]
    exact (h.keys.run c.kbd).2
  · exact (mem_push_all hb).elim (h.chars b) ConsoleOp.typed_ne_zero
  · rintro rfl
    have hlen := h.delivers.length
    rw [hiff, ConsoleOp.Fits]
    omega

/-- `cons_getc` takes the character out that waits longest. -/
theorem ConsoleInv.getc {x : ConsoleRun} {k : ℕ} {q : List (BitVec 8)} (h : ConsoleInv x k q) :
    ∃ q', ConsoleInv ⟨{ x.console with cons := x.console.cons.get.2 }, x.kbd, x.typed,
      x.got ++ [x.console.cons.get.1].filter (· ≠ 0#8)⟩ k q' := by
  cases q with
  | nil =>
      refine ⟨[], ?_⟩
      rw [h.waiting.get_nil]
      simpa using h
  | cons c q =>
      obtain ⟨hc, hq⟩ := h.waiting.get_cons
      have hne : c ≠ 0#8 := h.chars c List.mem_cons_self
      have hgot : [x.console.cons.get.1].filter (· ≠ 0#8) = [c] := by simp [hc, hne]
      refine ⟨q, hq, h.keys, ?_, fun b hb => h.chars b (List.mem_cons_of_mem _ hb)⟩
      rw [hgot]
      exact h.delivers.pop

/-- **One call.** -/
theorem ConsoleInv.step {x y : ConsoleRun} {k : ℕ} {q : List (BitVec 8)} {c : ConsoleOp}
    (h : ConsoleInv x k q) (hst : c.Step x y) :
    ∃ k' q', k ≤ k' ∧ ConsoleInv y k' q' ∧ (k = 0 → (k' = 0 ↔ c.Fits x)) := by
  obtain ⟨k', q', hle, hpoll, hiff⟩ := h.polled c
  subst hst
  cases c with
  | kbdIntr ds =>
      have hser : x.console.serialIntr [] = x.console := by
        rw [Console.serialIntr]
        split <;> rfl
      refine ⟨k', q', hle, ?_, hiff⟩
      rw [ConsoleRun.polled, ConsoleOp.serial, hser] at hpoll
      simpa [ConsoleOp.exec, ConsoleOp.kbd] using hpoll
  | serialIntr ds =>
      refine ⟨k', q', hle, ?_, hiff⟩
      rw [ConsoleRun.polled] at hpoll
      simpa [ConsoleOp.exec, ConsoleOp.serial, ConsoleOp.kbd, Console.kbdIntr, consIntr] using hpoll
  | consGetc serial kbd =>
      obtain ⟨q'', hgot⟩ := hpoll.getc
      exact ⟨k', q'', hle, hgot, hiff⟩

/-- **A run**: nothing is lost exactly when there was room for everything. -/
theorem ConsoleInv.run {serialExists : Bool} {x : ConsoleRun} {tr : List (ConsoleRun × ConsoleOp)}
    (hrun : Run (fun x c y => ConsoleOp.Step x c y) (ConsoleRun.boot serialExists) tr x) :
    ∃ k q, ConsoleInv x k q ∧ (k = 0 ↔ Meets (fun x c => c.Fits x) tr) := by
  generalize hstart : ConsoleRun.boot serialExists = x₀ at hrun
  induction hrun with
  | nil => exact ⟨0, [], hstart ▸ ConsoleInv.boot _, iff_of_true rfl fun p hp => by simp at hp⟩
  | snoc hrun hst ih =>
      subst hstart
      obtain ⟨k, q, h, hiff⟩ := ih
      obtain ⟨k', q', hle, h', hfits⟩ := h.step hst
      refine ⟨k', q', h', ?_⟩
      constructor
      · rintro rfl
        obtain rfl := Nat.le_zero.1 hle
        intro p hp
        rcases List.mem_append.1 hp with hp | hp
        · exact (hiff.1 rfl) p hp
        · obtain rfl := List.mem_singleton.1 hp
          exact (hfits rfl).1 rfl
      · intro hmeets
        obtain ⟨hbefore, hlast⟩ := hmeets.of_snoc
        exact (hfits (hiff.2 hbefore)).2 hlast

/-- **In every run** the characters come out in the order in which they were typed, those that have
not come out wait in the ring, and nothing is lost but blocks of 512 characters in a row: nothing at
all exactly when no more than 511 were waiting at any time. -/
theorem console_delivers {serialExists : Bool} {x : ConsoleRun} {tr : List (ConsoleRun × ConsoleOp)}
    (hrun : Run (fun x c y => ConsoleOp.Step x c y) (ConsoleRun.boot serialExists) tr x) :
    ∃ k q, x.console.cons.Waiting q ∧ Delivers consBufSize k x.typed x.got q ∧
      (x.got ++ q = x.typed ↔ Meets (fun x c => c.Fits x) tr) := by
  obtain ⟨k, q, h, hiff⟩ := ConsoleInv.run hrun
  exact ⟨k, q, h.waiting, h.delivers, (h.delivers.eq_iff (Nat.succ_pos 511)).trans hiff⟩

/-- A line is typed with shift held, and its first character is taken out. -/
theorem console_delivers_typed :
    ∃ tr x, Run (fun x c y => ConsoleOp.Step x c y) (ConsoleRun.boot true) tr x ∧
    tr.map Prod.snd = [.kbdIntr [0x2A, 0x23, 0xA3, 0xAA, 0x17], .consGetc [0x0D] []] ∧
    x.got = [0x48] ∧ x.typed = [0x48, 0x69, 0x0D] ∧
    ∃ k q, x.console.cons.Waiting q ∧ Delivers consBufSize k x.typed x.got q ∧
    (x.got ++ q = x.typed ↔ Meets (fun x c => c.Fits x) tr) := by
  refine ⟨_, _, ((Run.nil _).snoc rfl).snoc rfl, rfl, ?_, ?_, console_delivers
    (((Run.nil _).snoc rfl).snoc rfl)⟩
  · decide +kernel
  · decide +kernel

theorem typedAfter_append (es es₁ es₂ : List KeyEvent) :
    typedAfter es (es₁ ++ es₂) = typedAfter es es₁ ++ typedAfter (es ++ es₁) es₂ := by
  induction es₁ generalizing es with
  | nil => simp [typedAfter]
  | cons e es₁ ih =>
      rw [List.cons_append, typedAfter, typedAfter, ih, List.append_assoc, List.singleton_append]
      split
      · rfl
      · rfl

/-- **Without a serial port** what is typed are the characters of the keys. -/
theorem typed_keys {x : ConsoleRun} {tr : List (ConsoleRun × ConsoleOp)}
    (hrun : Run (fun x c y => ConsoleOp.Step x c y) (ConsoleRun.boot false) tr x) :
    x.typed = typedAfter [] (keyEvents false x.kbd) ∧ x.console.serialExists = false := by
  generalize hstart : ConsoleRun.boot false = x₀ at hrun
  induction hrun with
  | nil =>
      subst hstart
      exact ⟨rfl, rfl⟩
  | @snoc t u tr c hrun hst ih =>
      subst hstart
      obtain ⟨htyped, hserial⟩ := ih
      subst hst
      refine ⟨?_, ?_⟩
      · change t.typed ++ c.typed t = typedAfter [] (keyEvents false (t.kbd ++ c.kbd))
        rw [keyEvents_append, typedAfter_append, htyped, ConsoleOp.typed, hserial]
        rfl
      · cases c with
        | kbdIntr ds => exact hserial
        | serialIntr ds =>
            change (t.console.serialIntr ds).serialExists = false
            rw [Console.serialIntr, hserial]
            exact hserial
        | consGetc serial kbd =>
            change (t.console.serialIntr serial).serialExists = false
            rw [Console.serialIntr, hserial]
            exact hserial

end Jos
