import LuckOS.X86

/-!
# Straight code and unwinding code

Code assigns instructions to addresses. Straight code saves a context: it pushes and moves, and can
be executed as a block when no interrupt is taken. Unwinding code restores a context: it only reads
from the stack and moves up, so it may be interrupted at every instruction by code which leaves the
stack above it as it was.
-/

namespace LuckOS.X86

open ByteMemory

/-- The instruction at an address, and the address of the instruction that follows it. -/
abbrev Code := Dword → Option (Instr × Dword)

/-- The instruction at `eip` is performed. -/
def fetch (code : Code) (s : State) : Option (Instr × State) :=
  (code s.cpu.eip).map fun p => (p.1,
    exec p.1 { s with cpu := { s.cpu with eip := p.2, shadow := false } })

/-- The instructions `is` stand one after the other. -/
inductive CodeAt (code : Code) : Dword → List Instr → Dword → Prop
  | nil (w : Dword) : CodeAt code w [] w
  | cons {w n w' : Dword} {i : Instr} {is : List Instr} (head : code w =
    some (i, n)) (tail : CodeAt code n is w') :
      CodeAt code w (i :: is) w'

/-- All instructions in order, for which `eip` does not matter. -/
def execs (is : List Instr) (s : State) : State := is.foldl (fun s i => exec i s) s

namespace Instr

/-- The instructions that go on to the next one, and do not allow interrupts. -/
def straight : Instr → Bool
  | .push _ | .pushImm _ | .pop _ | .pusha | .popa | .movImm .. | .movLow .. | .movLoad .. | .movStore .. |
    .movFromDs _ | .movToSeg .. | .cli => true
  | .add .. | .jmp _ | .call _ | .ret | .sti | .iret => false

/-- The number of words which an instruction of unwinding code reads. -/
def pops : Instr → Option Nat
  | .pop _ => some 1
  | .popa => some 8
  | .movImm .. | .movLow .. | .movFromDs _ | .movToSeg .. | .add .. | .jmp _ | .cli | .sti => some 0
  | .push _ | .pushImm _ | .pusha | .movLoad .. | .movStore .. | .call _ | .ret | .iret => none

end Instr

variable {code : Code} {s : State} {x y : Cpu} {m m' : Memory} {i : Instr} {is : List Instr}
  {r : Reg} {w w' n : Dword}
  {a k top : Nat}

/-! ## Straight code -/

@[simp] theorem get_next (b : Bool) :
    Cpu.get { x with eip := n, shadow := b } r = x.get r := by cases r <;> rfl

@[simp] theorem set_next (b : Bool) :
    Cpu.set { x with eip := n, shadow := b } r w =
    { x.set r w with eip := n, shadow := b } := by cases r <;> rfl

theorem exec_straight (hi : i.straight = true) (b : Bool) :
    exec i { s with cpu := { s.cpu with eip := n, shadow := b } } =
      { exec i s with cpu := { (exec i s).cpu with eip := n, shadow := b } } := by
  cases i with
  | push r => simp [exec, State.push]
  | pop r => cases r <;> rfl
  | movImm r v => cases r <;> rfl
  | movLow r v => cases r <;> rfl
  | movLoad r base disp => cases r <;> simp [exec, Cpu.set]
  | movStore base r => simp [exec]
  | movFromDs r => cases r <;> rfl
  | movToSeg seg r => cases seg <;> simp [exec]
  | pushImm | pusha | popa | cli => rfl
  | add | jmp | call | ret | sti | iret => simp [Instr.straight] at hi

theorem Cpu.set_cs : (x.set r w).cs = x.cs := by cases r <;> rfl

theorem Cpu.set_eflags : (x.set r w).eflags = x.eflags := by cases r <;> rfl

theorem exec_straight_cs (hi : i.straight = true) : (exec i s).cpu.cs = s.cpu.cs := by
  cases i with
  | pop r => exact Cpu.set_cs
  | movImm r v => exact Cpu.set_cs
  | movLow r v => exact Cpu.set_cs
  | movLoad r base disp => exact Cpu.set_cs
  | movFromDs r => exact Cpu.set_cs
  | movToSeg seg r => cases seg <;> rfl
  | push | movStore | pushImm | pusha | popa | cli => simp only [exec, State.push, State.drop]
  | add | jmp | call | ret | sti | iret => simp [Instr.straight] at hi

theorem exec_straight_iflag (hi : i.straight = true) (h : s.cpu.iflag = false) :
    (exec i s).cpu.iflag = false := by
  rw [Cpu.iflag] at h ⊢
  cases i with
  | pop r => rwa [exec, Cpu.set_eflags]
  | movImm r v => rwa [exec, Cpu.set_eflags]
  | movLow r v => rwa [exec, Cpu.set_eflags]
  | movLoad r base disp => rwa [exec, Cpu.set_eflags]
  | movFromDs r => rwa [exec, Cpu.set_eflags]
  | movToSeg seg r => cases seg <;> exact h
  | cli => simp [exec]
  | push | movStore | pushImm | pusha | popa => simpa only [exec, State.push, State.drop] using h
  | add | jmp | call | ret | sti | iret => simp [Instr.straight] at hi

/-! ## Unwinding code -/

theorem mem_of_pops (hi : i.pops = some k) : (exec i s).mem = s.mem := by
  cases i with
  | movToSeg seg r => cases seg <;> rfl
  | pop | popa | movImm | movLow | movFromDs | add | jmp | cli | sti => rfl
  | push | pushImm | pusha | movLoad | movStore | call | ret | iret => simp [Instr.pops] at hi

/-- An instruction of unwinding code depends only on the words that it reads. -/
theorem cpu_of_pops (hi : i.pops = some k) (hsame : SameOn m m' x.esp.toNat (x.esp.toNat + 4 * k)) :
    (exec i ⟨x, m'⟩).cpu = (exec i ⟨x, m⟩).cpu := by
  have hword : ∀ j < k, State.word ⟨x, m'⟩ j = State.word ⟨x, m⟩ j :=
    fun j hj => load_congr (hsame.mono (Nat.le_add_right _ _) (by simp only []; omega))
  cases i with
  | pop r =>
    obtain rfl : k = 1 := by simpa [Instr.pops] using hi.symm
    simp [exec, State.drop, hword]
  | popa =>
    obtain rfl : k = 8 := by simpa [Instr.pops] using hi.symm
    simp [exec, State.drop, hword]
  | movToSeg seg r => cases seg <;> rfl
  | movImm | movLow | movFromDs | add | jmp | cli | sti => rfl
  | push | pushImm | pusha | movLoad | movStore | call | ret | iret => simp [Instr.pops] at hi

/-- From `x` on the code unwinds the stack, which reaches up to `top`, until `done` holds. -/
inductive Unwinds (code : Code) (m : Memory) (top : Nat) (done : Cpu → Prop) : Cpu → Prop
  | done {x : Cpu} (h : done x) : Unwinds code m top done x
  | step {x : Cpu} {i : Instr} {n : Dword} {k : Nat} (hcode : code x.eip =
    some (i, n)) (hpops : i.pops = some k)
      (hroom : x.esp.toNat + 4 * k ≤ top)
      (hup : x.esp.toNat ≤ (exec i ⟨{ x with eip := n, shadow := false }, m⟩).cpu.esp.toNat)
      (h : Unwinds code m top done (exec i ⟨{ x with eip := n, shadow := false },
        m⟩).cpu) : Unwinds code m top done x

namespace Unwinds

variable {done done' : Cpu → Prop}

/-- What happens below the stack pointer does not matter. -/
theorem congr (h : Unwinds code m top done x) (hsame : SameOn m m' x.esp.toNat top)
    (hdone : ∀ y, x.esp.toNat ≤ y.esp.toNat → done y → done' y) : Unwinds code m' top done' x := by
  induction h with
  | done h => exact .done (hdone _ (Nat.le_refl _) h)
  | @step x i n k hcode hpops hroom hup h ih =>
    have hcpu := cpu_of_pops (x := { x with eip := n, shadow := false }) hpops
      (hsame.mono (Nat.le_refl _) hroom)
    refine .step hcode hpops hroom (by rwa [hcpu]) ?_
    rw [hcpu]
    exact ih (hsame.mono hup (Nat.le_refl top)) fun y hy => hdone y (Nat.le_trans hup hy)

theorem toNat_ofNat (h : a ≤ top) (htop : top < 2 ^ 32) : (BitVec.ofNat 32 a).toNat = a := by
  rw [BitVec.toNat_ofNat, Nat.mod_eq_of_lt (by omega)]

/-- A step that leaves the stack alone. -/
theorem move (hcode : code x.eip = some (i, n)) (hpops : i.pops = some 0)
    (hesp : x.esp = BitVec.ofNat 32 a)
    (hroom : a ≤ top) (htop : top < 2 ^ 32)
    (hsame : (exec i ⟨{ x with eip := n, shadow := false }, m⟩).cpu.esp = x.esp)
    (h : Unwinds code m top done (exec i ⟨{ x with eip := n, shadow := false },
      m⟩).cpu) : Unwinds code m top done x := by
  refine .step hcode hpops ?_ (Nat.le_of_eq (congrArg BitVec.toNat hsame).symm) h
  rw [hesp, toNat_ofNat hroom htop]
  omega

theorem pop (hcode : code x.eip = some (.pop r, n)) (hr : r ≠ .esp) (hesp : x.esp = BitVec.ofNat 32 a)
    (hroom : a + 4 ≤ top) (htop : top < 2 ^ 32)
    (h : Unwinds code m top done
      (Cpu.set { x with esp := BitVec.ofNat 32 (a + 4), eip := n, shadow := false } r (load m a))) :
    Unwinds code m top done x := by
  have hexec : (exec (.pop r) ⟨{ x with eip := n, shadow := false }, m⟩).cpu =
      Cpu.set { x with esp := BitVec.ofNat 32 (a + 4), eip := n, shadow := false } r (load m a) := by
    have ha := toNat_ofNat (a := a) (by omega) htop
    simp only [exec, State.drop, State.word, hesp, BitVec.ofNat_add_ofNat, ha, Nat.mul_zero,
      Nat.add_zero]
  have hup : x.esp.toNat ≤ (Cpu.set { x with
    esp := BitVec.ofNat 32 (a + 4), eip := n, shadow := false } r
      (load m a)).esp.toNat := by
    have ha := toNat_ofNat (a := a) (by omega) htop
    have ha' := toNat_ofNat hroom htop
    cases r with
    | esp => exact absurd rfl hr
    | eax | ecx | edx | ebx | ebp | esi | edi => rw [hesp, ha, Cpu.set, ha']; omega
  refine .step hcode rfl ?_ (by rwa [hexec]) (by rwa [hexec])
  rw [hesp, toNat_ofNat (by omega) htop]
  exact hroom

/-- `pop esp` where the saved stack pointer is the address of the word above it. -/
theorem popEsp (hcode : code x.eip = some (.pop .esp, n)) (hesp : x.esp = BitVec.ofNat 32 a)
    (hroom : a + 4 ≤ top) (htop : top < 2 ^ 32) (hsaved : load m a = BitVec.ofNat 32 (a + 4))
    (h : Unwinds code m top done { x with esp := BitVec.ofNat 32 (a + 4), eip := n, shadow := false }) :
    Unwinds code m top done x := by
  have ha := toNat_ofNat (a := a) (by omega) htop
  have hexec : (exec (.pop .esp) ⟨{ x with eip := n, shadow := false }, m⟩).cpu =
      { x with esp := BitVec.ofNat 32 (a + 4), eip := n, shadow := false } := by
    simp only [exec, State.drop, State.word, Cpu.set, hesp, ha, Nat.mul_zero, Nat.add_zero, hsaved]
  refine .step hcode rfl ?_ ?_ (by rwa [hexec])
  · rw [hesp, ha]
    exact hroom
  · rw [hexec, hesp, ha, toNat_ofNat hroom htop]
    omega

theorem addEsp (hcode : code x.eip = some (.add .esp (BitVec.ofNat 32 k), n))
    (hesp : x.esp = BitVec.ofNat 32 a)
    (hroom : a + k ≤ top) (htop : top < 2 ^ 32)
    (h : ∀ e, Unwinds code m top done
      { x with esp := BitVec.ofNat 32 (a + k), eip := n, shadow := false, eflags := e }) :
    Unwinds code m top done x := by
  have ha := toNat_ofNat (a := a) (by omega) htop
  have hexec : (exec (.add .esp (BitVec.ofNat 32 k)) ⟨{ x with eip := n, shadow := false }, m⟩).cpu =
      { x with
        esp := BitVec.ofNat 32 (a + k), eip := n, shadow := false,
        eflags := addFlags x.eflags x.esp (BitVec.ofNat 32 k) } := by
    simp only [exec, Cpu.set, Cpu.get, hesp, BitVec.ofNat_add_ofNat]
  refine .step hcode rfl ?_ ?_ (by rw [hexec]; exact h _)
  · rw [hesp, ha]
    omega
  · rw [hexec, hesp, ha, toNat_ofNat hroom htop]
    omega

theorem popa (hcode : code x.eip = some (.popa, n)) (hesp : x.esp = BitVec.ofNat 32 a)
    (hroom : a + 32 ≤ top) (htop : top < 2 ^ 32)
    (h : Unwinds code m top done { x with
      esp := BitVec.ofNat 32 (a + 32), eip := n, shadow := false, edi := load m a,
      esi := load m (a + 4),
      ebp := load m (a + 8), ebx := load m (a + 16), edx := load m (a + 20), ecx := load m (a + 24),
      eax := load m (a + 28) }) :
    Unwinds code m top done x := by
  have ha := toNat_ofNat (a := a) (by omega) htop
  have hexec : (exec .popa ⟨{ x with eip := n, shadow := false }, m⟩).cpu = { x with
      esp := BitVec.ofNat 32 (a + 32), eip := n, shadow := false, edi := load m a,
        esi := load m (a + 4),
      ebp := load m (a + 8), ebx := load m (a + 16), edx := load m (a + 20), ecx := load m (a + 24),
      eax := load m (a + 28) } := by
    simp only [exec, State.drop, State.word, hesp, BitVec.ofNat_add_ofNat, ha, Nat.mul_zero,
      Nat.add_zero, Nat.reduceMul]
  refine .step hcode rfl ?_ ?_ (by rwa [hexec])
  · rw [hesp, ha]
    exact hroom
  · rw [hexec, hesp, ha, toNat_ofNat hroom htop]
    omega

end Unwinds

end LuckOS.X86
