import LuckOS.ByteMemory

/-!
# Stack instructions of a 32-bit processor

The registers, the instructions by which contexts are saved and restored, the interrupt gates and
the return from an interrupt. Memory is flat and little-endian. The segment registers other than
`ds`, `cs` and `ss` are not represented: loading them changes nothing here.
-/

namespace LuckOS.X86

open ByteMemory

abbrev Dword := BitVec 32
abbrev Selector := BitVec 16

def load (m : Memory) (a : Nat) : Dword := BitVec.ofNat 32 (read32 m a)

def store (m : Memory) (a : Nat) (w : Dword) : Memory := write32 m a w.toNat

/-- `shadow` holds for one instruction after `sti` has allowed the interrupts. -/
@[ext] structure Cpu where
  eax : Dword
  ecx : Dword
  edx : Dword
  ebx : Dword
  esp : Dword
  ebp : Dword
  esi : Dword
  edi : Dword
  eip : Dword
  eflags : Dword
  cs : Selector
  ds : Selector
  ss : Selector
  shadow : Bool
  deriving DecidableEq

inductive Reg where
  | eax | ecx | edx | ebx | esp | ebp | esi | edi
  deriving DecidableEq

inductive Seg where
  | ds | es | fs | gs
  deriving DecidableEq

namespace Cpu

def get (x : Cpu) : Reg → Dword
  | .eax => x.eax
  | .ecx => x.ecx
  | .edx => x.edx
  | .ebx => x.ebx
  | .esp => x.esp
  | .ebp => x.ebp
  | .esi => x.esi
  | .edi => x.edi

def set (x : Cpu) (r : Reg) (w : Dword) : Cpu :=
  match r with
  | .eax => { x with eax := w }
  | .ecx => { x with ecx := w }
  | .edx => { x with edx := w }
  | .ebx => { x with ebx := w }
  | .esp => { x with esp := w }
  | .ebp => { x with ebp := w }
  | .esi => { x with esi := w }
  | .edi => { x with edi := w }

/-- The privilege level is that of the code segment. -/
def user (x : Cpu) : Bool := x.cs &&& 3 == 3

/-- Bit 9 of `eflags`. -/
def iflag (x : Cpu) : Bool := x.eflags.getLsbD 9

/-- A hardware interrupt is taken before the next instruction. -/
def interruptible (x : Cpu) : Bool := x.iflag && !x.shadow

end Cpu

inductive Instr where
  | push (r : Reg)
  | pushImm (v : Dword)
  | pop (r : Reg)
  | pusha
  | popa
  | movImm (r : Reg) (v : Dword)
  /-- `mov ax, v`: the lower half of the register. -/
  | movLow (r : Reg) (v : Selector)
  /-- `mov r, [base + disp]`. -/
  | movLoad (r base : Reg) (disp : Dword)
  /-- `mov [base], r`. -/
  | movStore (base r : Reg)
  /-- `mov ax, ds`: the lower half of the register. -/
  | movFromDs (r : Reg)
  | movToSeg (seg : Seg) (r : Reg)
  | add (r : Reg) (v : Dword)
  | jmp (target : Dword)
  | call (target : Dword)
  | ret
  | cli
  | sti
  | iret
  deriving DecidableEq

structure State where
  cpu : Cpu
  mem : Memory

def setLow (w : Dword) (v : Selector) : Dword := (w &&& 0xFFFF0000#32) ||| v.setWidth 32

def setBit (f : Dword) (k : Nat) (v : Bool) : Dword :=
  if v then f ||| (1#32 <<< k) else f &&& ~~~(1#32 <<< k)

/-- The status flags after `a + b`: carry, parity, auxiliary carry, zero, sign and overflow. -/
def addFlags (f a b : Dword) : Dword :=
  let r := a + b
  let f := setBit f 0 (decide (r < a))
  let f := setBit f 2 ((List.range 8).countP (fun k => r.getLsbD k) % 2 == 0)
  let f := setBit f 4 (decide (a &&& 15 > r &&& 15))
  let f := setBit f 6 (r == 0)
  let f := setBit f 7 r.msb
  setBit f 11 (a.msb == b.msb && r.msb != a.msb)

namespace State

def push (s : State) (w : Dword) : State where
  cpu := { s.cpu with esp := s.cpu.esp - 4 }
  mem := store s.mem (s.cpu.esp - 4).toNat w

def pushes (s : State) (ws : List Dword) : State := ws.foldl push s

/-- The `k`-th word from the top of the stack. -/
def word (s : State) (k : Nat) : Dword := load s.mem (s.cpu.esp.toNat + 4 * k)

/-- Drop `k` words from the stack. -/
def drop (s : State) (k : Nat) : State :=
  { s with cpu := { s.cpu with esp := s.cpu.esp + BitVec.ofNat 32 (4 * k) } }

end State

/-- The context on the stack, as far as every `iret` loads it. -/
def State.popped (s : State) : Cpu :=
  { (s.drop 3).cpu with eip := s.word 0, cs := (s.word 1).setWidth 16, eflags := s.word 2 }

/-- The context on the stack of which also `esp` and `ss` are loaded. -/
def State.poppedUser (s : State) : Cpu :=
  { s.popped with esp := s.word 3, ss := (s.word 4).setWidth 16 }

/-- One instruction, for which `eip` is already the address of the next one. -/
def exec : Instr → State → State
  | .push r, s => s.push (s.cpu.get r)
  | .pushImm v, s => s.push v
  | .pop r, s => { s with cpu := (s.drop 1).cpu.set r (s.word 0) }
  | .pusha, s =>
    (((((((s.push s.cpu.eax).push s.cpu.ecx).push s.cpu.edx).push s.cpu.ebx).push s.cpu.esp).push s.cpu.ebp).push
      s.cpu.esi).push s.cpu.edi
  | .popa, s =>
    -- the fourth word, the saved `esp`, is skipped
    { s with cpu := { (s.drop 8).cpu with
        edi := s.word 0, esi := s.word 1, ebp := s.word 2, ebx := s.word 4, edx := s.word 5, ecx := s.word 6,
        eax := s.word 7 } }
  | .movImm r v, s => { s with cpu := s.cpu.set r v }
  | .movLow r v, s => { s with cpu := s.cpu.set r (setLow (s.cpu.get r) v) }
  | .movLoad r base disp, s => { s with cpu := s.cpu.set r (load s.mem (s.cpu.get base + disp).toNat) }
  | .movStore base r, s => { s with mem := store s.mem (s.cpu.get base).toNat (s.cpu.get r) }
  | .movFromDs r, s => { s with cpu := s.cpu.set r (setLow (s.cpu.get r) s.cpu.ds) }
  | .movToSeg .ds r, s => { s with cpu := { s.cpu with ds := (s.cpu.get r).setWidth 16 } }
  | .movToSeg _ _, s => s
  | .add r v, s =>
    { s with cpu := { s.cpu.set r (s.cpu.get r + v) with
      eflags := addFlags s.cpu.eflags (s.cpu.get r) v } }
  | .jmp target, s => { s with cpu := { s.cpu with eip := target } }
  | .call target, s =>
    let s := s.push s.cpu.eip
    { s with cpu := { s.cpu with eip := target } }
  | .ret, s => { s with cpu := { (s.drop 1).cpu with eip := s.word 0 } }
  | .cli, s => { s with cpu := { s.cpu with eflags := s.cpu.eflags &&& ~~~0x200#32 } }
  | .sti, s => { s with cpu := { s.cpu with
    eflags := s.cpu.eflags ||| 0x200#32, shadow := !s.cpu.iflag } }
  | .iret, s => { s with cpu := if s.popped.user then s.poppedUser else s.popped }

/-- What an interrupt gate names: the entry and its code segment, and the stack for the way in from user mode. -/
structure Gate where
  entry : Dword
  cs : Selector
  ss0 : Selector
  esp0 : Dword

/-- An interrupt through a gate. The gate clears `IF`, `TF`, `NT`, `RF` and `VM`. -/
def interrupt (gate : Gate) (err : Option Dword) (s : State) : State :=
  let x := s.cpu
  let s :=
    if x.user then
      (State.push { s with cpu := { x with esp := gate.esp0, ss := gate.ss0 } }
        (x.ss.setWidth 32)).push x.esp
    else s
  let s := ((s.push x.eflags).push (x.cs.setWidth 32)).push x.eip
  let s := match err with
    | none => s
    | some e => s.push e
  { s with cpu := { s.cpu with
      eip := gate.entry, cs := gate.cs, eflags := x.eflags &&& ~~~0x34300#32, shadow := false } }

/-! ## Words in memory -/

variable {m m' m₀ : Memory} {a b lo hi top : Nat} {w v : Dword} {ws : List Dword}

theorem load_congr (h : SameOn m m' a (a + 4)) :
    load m' a = load m a := by rw [load, read32_congr h, load]

@[simp] theorem load_store : load (store m a w) a = w := by
  rw [load, store, read32_write32 w.isLt, BitVec.ofNat_toNat, BitVec.setWidth_eq]

theorem sameOn_store (h : hi ≤ a ∨ a + 4 ≤ lo) : SameOn m (store m a w) lo hi := sameOn_write32 h

theorem store_outside {z : Nat} (h : z < a ∨ a + 4 ≤ z) : store m a w z = m z := write32_of_ne (by omega)

theorem load_store_of_ne (h : a + 4 ≤ b ∨ b + 4 ≤ a) : load (store m a w) b = load m b :=
  load_congr (sameOn_store (by omega))

/-- The words from the address `a` on. -/
def Words (m : Memory) : Nat → List Dword → Prop
  | _, [] => True
  | a, w :: ws => load m a = w ∧ Words m (a + 4) ws

theorem Words.congr (h : Words m a ws) (hsame : SameOn m m' a (a + 4 * ws.length)) : Words m' a ws := by
  induction ws generalizing a with
  | nil => trivial
  | cons w ws ih =>
    rw [List.length_cons] at hsame
    exact ⟨(load_congr (hsame.mono (Nat.le_refl a) (by omega))).trans h.1,
      ih h.2 (hsame.mono (by omega) (by omega))⟩

theorem Words.get (h : Words m a ws) {k : Nat} (hk : k < ws.length) : load m (a + 4 * k) = ws[k] := by
  induction ws generalizing a k with
  | nil => simp at hk
  | cons w ws ih =>
    cases k with
    | zero => exact h.1
    | succ k =>
      rw [List.length_cons] at hk
      rw [show a + 4 * (k + 1) = a + 4 + 4 * k by omega]
      exact ih h.2 (by omega)

theorem Words.append {ws' : List Dword} (h : Words m a ws) (h' : Words m (a + 4 * ws.length) ws') :
    Words m a (ws ++ ws') := by
  induction ws generalizing a with
  | nil => exact h'
  | cons w ws ih =>
    refine ⟨h.1, ih h.2 ?_⟩
    rw [List.length_cons] at h'
    rwa [show a + 4 + 4 * ws.length = a + 4 * (ws.length + 1) by omega]

theorem Words.drop (h : Words m a ws) (k : Nat) : Words m (a + 4 * k) (ws.drop k) := by
  induction ws generalizing a k with
  | nil => simp [Words]
  | cons w ws ih =>
    cases k with
    | zero => exact h
    | succ k =>
      rw [show a + 4 * (k + 1) = a + 4 + 4 * k by omega]
      exact ih h.2 k

/-- The words `ws` have been pushed below `top` on the memory `m₀`, and nothing else has changed. -/
structure Pushed (m₀ : Memory) (top : Nat) (ws : List Dword) (esp : Dword) (m : Memory) : Prop where
  extent : esp.toNat + 4 * ws.length = top
  words : Words m esp.toNat ws
  below : SameOn m₀ m 0 esp.toNat
  above : ∀ hi, SameOn m₀ m top hi

namespace Pushed

variable {esp : Dword}

theorem nil (h : esp.toNat = top) : Pushed m top [] esp m where
  extent := h
  words := trivial
  below := fun _ _ _ => rfl
  above := fun _ _ _ _ => rfl

theorem toNat_sub_four (h : 4 ≤ esp.toNat) : (esp - 4).toNat = esp.toNat - 4 := by bv_omega

theorem push (h : Pushed m₀ top ws esp m) (hroom : 4 * (ws.length + 1) ≤ top) (w : Dword) :
    Pushed m₀ top (w :: ws) (esp - 4) (store m (esp - 4).toNat w) := by
  have hextent := h.extent
  have hesp : 4 ≤ esp.toNat := by omega
  rw [toNat_sub_four hesp]
  constructor
  · rw [toNat_sub_four hesp, List.length_cons]
    omega
  · rw [toNat_sub_four hesp]
    refine ⟨load_store, ?_⟩
    rw [Nat.sub_add_cancel hesp]
    exact h.words.congr (sameOn_store (.inr (by omega)))
  · rw [toNat_sub_four hesp]
    exact (h.below.mono (Nat.le_refl 0) (by omega)).trans (sameOn_store (.inl (Nat.le_refl _)))
  · intro hi
    exact (h.above hi).trans (sameOn_store (.inr (by omega)))

theorem pushes {st : State} (h : Pushed m₀ top ws st.cpu.esp st.mem) (ws' : List Dword)
    (hroom : 4 * (ws'.length + ws.length) ≤ top) :
    Pushed m₀ top (ws'.reverse ++ ws) (st.pushes ws').cpu.esp (st.pushes ws').mem := by
  induction ws' generalizing st ws with
  | nil => exact h
  | cons w ws' ih =>
    rw [List.length_cons] at hroom
    have hpush : Pushed m₀ top (w :: ws) (st.push w).cpu.esp (st.push w).mem := h.push (by omega) w
    have hrest := ih hpush (by rw [List.length_cons]; omega)
    rw [List.reverse_cons, List.append_assoc]
    exact hrest

/-- Words are pushed below those that have been pushed. -/
theorem append {m₁ m₂ : Memory} {esp' : Dword} {ws' : List Dword} (h : Pushed m₀ top ws esp m₁)
    (h' : Pushed m₁ esp.toNat ws' esp' m₂) : Pushed m₀ top (ws' ++ ws) esp' m₂ := by
  have hextent := h.extent
  have hextent' := h'.extent
  constructor
  · rw [List.length_append]
    omega
  · refine h'.words.append ?_
    rw [hextent']
    exact h.words.congr (h'.above _)
  · exact (h.below.mono (Nat.le_refl 0) (by omega)).trans h'.below
  · intro hi
    exact (h.above hi).trans ((h'.above hi).mono (by omega) (Nat.le_refl hi))

end Pushed

end LuckOS.X86
