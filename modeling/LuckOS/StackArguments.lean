import LuckOS.ByteMemory

/-!
# The arguments on the stack of a new user thread

`prepare_user_stack` of `task/thread.c` reserves space for the strings, copies them with `strcpy`
of `common/stdlib.c`, and stores the array of their addresses and a frame for the entry below
them. Addresses are taken modulo `2 ^ 32`. Its locals are kept apart from the memory of the user
stack, and so is the word `user_esp`, which lies in the kernel stack of the thread.
-/

namespace LuckOS.StackArguments

open ByteMemory

/-- The memory, the addresses of the bytes that have been stored, and `user_esp`. -/
structure StackState where
  mem : Memory
  stores : List Nat
  userEsp : Nat

namespace StackState

def store8 (s : StackState) (addr : Nat) (v : UInt8) : StackState :=
  let addr := addr % 2 ^ 32
  { s with mem := write8 s.mem addr v, stores := s.stores ++ [addr] }

/-- A store to an address that is a multiple of four. -/
def store32 (s : StackState) (addr v : Nat) : StackState :=
  let addr := addr % 2 ^ 32
  { s with mem := write32 s.mem addr v, stores := s.stores ++ [addr, addr + 1, addr + 2, addr + 3] }

end StackState

/-- `argv[i]`. -/
def argPtr (m : Memory) (argv i : Nat) : Nat := read32 m (argv + 4 * i)

/-- The inner loop that reserves space: the test `(c != argv[i][j++]) != '\0'` compares the variable
`c`, which has no value yet. The loop has not ended after `2 ^ 32` rounds if it never ends. -/
def reserveArg (m : Memory) (c : UInt8) : Nat → Nat → Nat → Option Nat
  | 0, _, _ => none
  | rounds + 1, addr, total =>
    if c ≠ m (addr % 2 ^ 32) then reserveArg m c rounds (addr + 1) ((total + 1) % 2 ^ 32)
    else some ((total + 1) % 2 ^ 32)

/-- The outer loop. The variable `c` of round `i` is found with the byte `garbage i`. -/
def reserve (m : Memory) (garbage : Nat → UInt8) (argv : Nat) : Nat → Nat → Nat → Option Nat
  | 0, _, total => some total
  | rounds + 1, i, total =>
    (reserveArg m (garbage i) (2 ^ 32) (argPtr m argv i) total).bind (reserve m garbage argv rounds (i + 1))

/-- `strcpy`. After `2 ^ 32` rounds there is no zero left that could end the loop. -/
def strcpy : Nat → Nat → Nat → Nat → StackState → Option (Nat × StackState)
  | 0, _, _, _, _ => none
  | rounds + 1, dst, src, num, s =>
    let c := s.mem (src % 2 ^ 32)
    let s := s.store8 dst c
    if c = 0 then some (num, s) else strcpy rounds (dst + 1) (src + 1) (num + 1) s

/-- The loop that copies the strings and collects their addresses in `args`. -/
def copyStrings (argv : Nat) : Nat → Nat → Nat → List Nat → StackState → Option (List Nat × StackState)
  | 0, _, _, args, s => some (args, s)
  | rounds + 1, i, argvCharsAddr, args, s =>
    (strcpy (2 ^ 32) argvCharsAddr (argPtr s.mem argv i) 0 s).bind fun (length, s) =>
      copyStrings argv rounds (i + 1) ((argvCharsAddr + (length + 1)) % 2 ^ 32) (args ++ [argvCharsAddr]) s

/-- The loop that stores `args` from `addr` on. -/
def storeArgs : Nat → List Nat → StackState → StackState
  | _, [], s => s
  | addr, arg :: args, s => storeArgs (addr + 4) args (s.store32 addr arg)

/-- `stack_top -= n`. -/
def lower (stackTop n : Nat) : Nat := (stackTop + (2 ^ 32 - n % 2 ^ 32)) % 2 ^ 32

/-- The end of `prepare_user_stack`, from the array on. -/
def storeFrame (stackTop argc returnAddr : Nat) (args : List Nat) (s : StackState) : Nat × StackState :=
  let argvStart := lower stackTop ((argc + 1) * 4)
  let s := storeArgs argvStart args s
  let stackTop := lower argvStart 4
  let s := s.store32 stackTop argvStart
  let stackTop := lower stackTop 4
  let s := s.store32 stackTop (argc + 1)
  let stackTop := lower stackTop 4
  let s := s.store32 stackTop returnAddr
  (stackTop, { s with userEsp := stackTop })

/-- `prepare_user_stack`, where `name` is `thread->name`. -/
def prepareUserStack (garbage : Nat → UInt8) (name stackTop argc argv returnAddr : Nat) (s : StackState) :
    Option (Nat × StackState) :=
  (reserve s.mem garbage argv argc 0 0).bind fun totalArgvLength =>
    let stackTop := lower stackTop totalArgvLength / 4 * 4
    (copyStrings argv argc 0 stackTop [name] s).map fun (args, s) => storeFrame stackTop argc returnAddr args s

/-! ## Strings and what the function promises -/

/-- A string of `length` characters with its terminating zero, which does not wrap. -/
structure StringAt (m : Memory) (addr length : Nat) : Prop where
  chars : ∀ k < length, m (addr + k) ≠ 0
  zero : m (addr + length) = 0
  noWrap : addr + length < 2 ^ 32

/-- The bytes of the first strings, with their zeros. -/
def bytes (length : Nat → Nat) : Nat → Nat
  | 0 => 0
  | i + 1 => bytes length i + (length i + 1)

/-- What `process_exec` passes: `argc` strings and the array of their addresses, which are copies in
the heap of the kernel and so lie above the user stacks. -/
structure Arguments (m : Memory) (stackTop argc argv : Nat) (length : Nat → Nat) : Prop where
  array : stackTop ≤ argv
  arrayEnd : argv + 4 * argc ≤ 2 ^ 32
  above : ∀ i < argc, stackTop ≤ argPtr m argv i
  string : ∀ i < argc, StringAt m (argPtr m argv i) (length i)

/-- The size of a user stack. -/
def userStackSize : Nat := 65536

/-- The strings, the array and the frame of three words fit in a stack, also after the rounding. -/
def Fit (argc : Nat) (length : Nat → Nat) : Prop :=
  bytes length argc + 4 * (argc + 1) + 12 + 3 ≤ userStackSize

/-- The stack that the function shall build, with `sp` as its top. -/
structure LaidOut (m : Memory) (name stackTop argc argv returnAddr : Nat) (length : Nat → Nat) (sp : Nat)
    (s : StackState) : Prop where
  below : ∀ addr ∈ s.stores, addr < stackTop
  returns : read32 s.mem sp = returnAddr
  count : read32 s.mem (sp + 4) = argc + 1
  array : sp + 12 ≤ read32 s.mem (sp + 8)
  first : argPtr s.mem (read32 s.mem (sp + 8)) 0 = name
  between : ∀ i < argc, read32 s.mem (sp + 8) + 4 * (argc + 1) ≤ argPtr s.mem (read32 s.mem (sp + 8)) (i + 1) ∧
    argPtr s.mem (read32 s.mem (sp + 8)) (i + 1) + length i < stackTop
  copy : ∀ i < argc, ∀ k ≤ length i,
    s.mem (argPtr s.mem (read32 s.mem (sp + 8)) (i + 1) + k) = m (argPtr m argv i + k)
  apart : ∀ j < argc, ∀ i < j,
    argPtr s.mem (read32 s.mem (sp + 8)) (i + 1) + length i < argPtr s.mem (read32 s.mem (sp + 8)) (j + 1) ∨
      argPtr s.mem (read32 s.mem (sp + 8)) (j + 1) + length j < argPtr s.mem (read32 s.mem (sp + 8)) (i + 1)
  top : s.userEsp = sp

/-- The first place of a byte from `addr` on is `k` bytes behind it. -/
structure FirstAt (m : Memory) (c : UInt8) (addr k : Nat) : Prop where
  here : m ((addr + k) % 2 ^ 32) = c
  first : ∀ j < k, m ((addr + j) % 2 ^ 32) ≠ c

/-- Up to the first places of the garbage bytes there are enough bytes for the strings, and not so many
that no room is left below them. -/
def EnoughReserved (m : Memory) (garbage : Nat → UInt8) (stackTop argc argv : Nat) (length : Nat → Nat) : Prop :=
  ∃ first : Nat → Nat, (∀ i < argc, FirstAt m (garbage i) (argPtr m argv i) (first i)) ∧
    lower stackTop (bytes first argc) / 4 * 4 + bytes length argc ≤ stackTop ∧
    4 * (argc + 1) + 12 ≤ lower stackTop (bytes first argc) / 4 * 4

variable {m : Memory} {s s' : StackState} {c : UInt8} {garbage : Nat → UInt8} {length first : Nat → Nat}
  {name stackTop argc argv returnAddr addr k n rounds i : Nat}

/-! ## The reserved space -/

theorem FirstAt.lt (h : FirstAt m c addr k) : k < 2 ^ 32 := by
  by_contra hk
  have hback : (addr + (k - 2 ^ 32)) % 2 ^ 32 = (addr + k) % 2 ^ 32 := by omega
  exact h.first (k - 2 ^ 32) (by omega) (by rw [hback]; exact h.here)

theorem FirstAt.next (h : FirstAt m c addr (k + 1)) : FirstAt m c (addr + 1) k where
  here := by
    rw [Nat.add_assoc, Nat.add_comm 1 k]
    exact h.here
  first := by
    intro j hj
    rw [Nat.add_assoc, Nat.add_comm 1 j]
    exact h.first (j + 1) (by omega)

theorem reserveArg_eq {total : Nat} (h : FirstAt m c addr k) (hk : k < rounds) :
    reserveArg m c rounds addr total = some ((total + (k + 1)) % 2 ^ 32) := by
  induction k generalizing addr rounds total with
  | zero =>
    obtain ⟨rounds, rfl⟩ : ∃ r, rounds = r + 1 := ⟨rounds - 1, by omega⟩
    have hc : m (addr % 2 ^ 32) = c := h.here
    rw [reserveArg, hc, if_neg fun hne => hne rfl]
  | succ k ih =>
    obtain ⟨rounds, rfl⟩ : ∃ r, rounds = r + 1 := ⟨rounds - 1, by omega⟩
    have hc : c ≠ m (addr % 2 ^ 32) := (h.first 0 (by omega)).symm
    rw [reserveArg, if_pos hc, ih h.next (by omega)]
    congr 1
    omega

theorem reserveArg_ends {total total' : Nat} (h : reserveArg m c rounds addr total = some total') :
    ∃ k, FirstAt m c addr k := by
  induction rounds generalizing addr total with
  | zero => simp [reserveArg] at h
  | succ rounds ih =>
    rw [reserveArg] at h
    split at h
    · rename_i hc
      obtain ⟨k, hk⟩ := ih h
      refine ⟨k + 1, ?_, ?_⟩
      · rw [← Nat.add_assoc, Nat.add_right_comm]
        exact hk.here
      · intro j hj
        cases j with
        | zero => exact Ne.symm hc
        | succ j =>
          rw [← Nat.add_assoc, Nat.add_right_comm]
          exact hk.first j (by omega)
    · rename_i hc
      exact ⟨0, (not_not.mp hc).symm, fun j hj => absurd hj (by omega)⟩

theorem reserve_eq (h : ∀ j < i + rounds, FirstAt m (garbage j) (argPtr m argv j) (first j)) :
    reserve m garbage argv rounds i (bytes first i % 2 ^ 32) = some (bytes first (i + rounds) % 2 ^ 32) := by
  induction rounds generalizing i with
  | zero => rfl
  | succ rounds ih =>
    have hi := h i (by omega)
    have hnext := @ih (i + 1) fun j hj => h j (by omega)
    rw [reserve, reserveArg_eq hi hi.lt, Option.bind_some, Nat.mod_add_mod]
    rw [Nat.add_right_comm] at hnext
    exact hnext

theorem reserve_ends {total total' : Nat} (h : reserve m garbage argv rounds i total = some total') :
    ∀ j, i ≤ j → j < i + rounds → ∃ k, FirstAt m (garbage j) (argPtr m argv j) k := by
  induction rounds generalizing i total with
  | zero =>
    intro j hj hj'
    omega
  | succ rounds ih =>
    rw [reserve] at h
    obtain ⟨next, hnext, h⟩ := Option.bind_eq_some_iff.mp h
    intro j hj hj'
    rcases Nat.eq_or_lt_of_le hj with rfl | hlt
    · exact reserveArg_ends hnext
    · exact ih h j hlt (by omega)

theorem lower_mod (stackTop n : Nat) : lower stackTop (n % 2 ^ 32) = lower stackTop n := by
  rw [lower, lower, Nat.mod_mod]

/-! ## The copies -/

theorem StringAt.congr {m' : Memory} (h : StringAt m addr n) (hm : ∀ x, addr ≤ x → m' x = m x) : StringAt m' addr n where
  chars := fun k hk => by
    rw [hm _ (Nat.le_add_right addr k)]
    exact h.chars k hk
  zero := by
    rw [hm _ (Nat.le_add_right addr n)]
    exact h.zero
  noWrap := h.noWrap

theorem StringAt.mod_eq (h : StringAt m addr n) : addr % 2 ^ 32 = addr :=
  Nat.mod_eq_of_lt (Nat.lt_of_le_of_lt (Nat.le_add_right addr n) h.noWrap)

theorem StringAt.tail (h : StringAt m addr (n + 1)) : StringAt m (addr + 1) n where
  chars := fun k hk => by
    rw [Nat.add_assoc, Nat.add_comm 1 k]
    exact h.chars (k + 1) (by omega)
  zero := by
    rw [Nat.add_assoc, Nat.add_comm 1 n]
    exact h.zero
  noWrap := by
    have hwrap := h.noWrap
    omega

/-- `n` characters and their zero are copied from `src` to `dst`, and nothing else changes. -/
structure Copied (s : StackState) (dst src n : Nat) (s' : StackState) : Prop where
  copy : ∀ k ≤ n, s'.mem (dst + k) = s.mem (src + k)
  frame : ∀ x, x < dst ∨ dst + n < x → s'.mem x = s.mem x
  stores : ∀ x ∈ s'.stores, x ∈ s.stores ∨ dst ≤ x ∧ x ≤ dst + n

section Copies

variable {dst src num : Nat}

theorem store8_mem (hdst : dst < 2 ^ 32) : (s.store8 dst c).mem dst = c := by
  simp only [StackState.store8, Nat.mod_eq_of_lt hdst, write8, if_true]

theorem store8_mem_of_ne (hdst : dst < 2 ^ 32) {x : Nat} (hx : x ≠ dst) : (s.store8 dst c).mem x = s.mem x := by
  simp only [StackState.store8, Nat.mod_eq_of_lt hdst, write8, if_neg hx]

theorem mem_stores_store8 (hdst : dst < 2 ^ 32) {x : Nat} : x ∈ (s.store8 dst c).stores ↔ x ∈ s.stores ∨ x = dst := by
  simp only [StackState.store8, Nat.mod_eq_of_lt hdst, List.mem_append, List.mem_singleton]

/-- A string that lies above the copy is copied to its zero. -/
theorem strcpy_copied (h : StringAt s.mem src n) (hdst : dst + n < src) (hn : n < rounds) :
    ∃ s', strcpy rounds dst src num s = some (num + n, s') ∧ Copied s dst src n s' := by
  have hsrc := h.noWrap
  induction n generalizing rounds dst src num s with
  | zero =>
    obtain ⟨rounds, rfl⟩ : ∃ r, rounds = r + 1 := ⟨rounds - 1, by omega⟩
    have hdst' : dst < 2 ^ 32 := by omega
    have hc : s.mem (src % 2 ^ 32) = 0 := by
      rw [h.mod_eq]
      exact h.zero
    refine ⟨s.store8 dst 0, ?_, ?_, ?_, ?_⟩
    · rw [strcpy, hc, if_pos rfl]
      rfl
    · intro k hk
      obtain rfl : k = 0 := by omega
      rw [h.zero]
      exact store8_mem hdst'
    · intro x hx
      exact store8_mem_of_ne hdst' (by omega)
    · intro x hx
      exact ((mem_stores_store8 hdst').mp hx).imp_right fun heq => by omega
  | succ n ih =>
    obtain ⟨rounds, rfl⟩ : ∃ r, rounds = r + 1 := ⟨rounds - 1, by omega⟩
    have hdst' : dst < 2 ^ 32 := by omega
    have hmod := h.mod_eq
    have hc : s.mem (src % 2 ^ 32) ≠ 0 := by
      rw [hmod]
      exact h.chars 0 (by omega)
    have hframe : ∀ x, src + 1 ≤ x → (s.store8 dst (s.mem (src % 2 ^ 32))).mem x = s.mem x := fun x hx =>
      store8_mem_of_ne hdst' (by omega)
    obtain ⟨s', hrun, hcopied⟩ := @ih (s.store8 dst (s.mem (src % 2 ^ 32))) rounds (dst + 1) (src + 1) (num + 1)
      (h.tail.congr hframe) (by omega) (by omega) (by omega)
    refine ⟨s', ?_, ?_, ?_, ?_⟩
    · rw [strcpy]
      simp only [hc, if_false]
      rw [hrun, Nat.add_assoc, Nat.add_comm 1 n]
    · intro k hk
      cases k with
      | zero =>
        rw [Nat.add_zero, hcopied.frame dst (by omega), store8_mem hdst', hmod, Nat.add_zero]
      | succ k =>
        have hk' := hcopied.copy k (by omega)
        rw [Nat.add_right_comm, hframe _ (by omega)] at hk'
        rw [← Nat.add_assoc, hk', Nat.add_right_comm, Nat.add_assoc]
    · intro x hx
      rw [hcopied.frame x (by omega), store8_mem_of_ne hdst' (by omega)]
    · intro x hx
      rcases hcopied.stores x hx with hx | hx
      · exact ((mem_stores_store8 hdst').mp hx).imp_right fun heq => by omega
      · exact Or.inr ⟨by omega, by omega⟩

theorem store8_keeps : ∀ x ∈ s.stores, x ∈ (s.store8 dst c).stores := fun _ hx => List.mem_append_left _ hx

theorem strcpy_keeps (h : strcpy rounds dst src num s = some (n, s')) : ∀ x ∈ s.stores, x ∈ s'.stores := by
  induction rounds generalizing dst src num s with
  | zero => simp [strcpy] at h
  | succ rounds ih =>
    simp only [strcpy] at h
    split at h
    · cases h
      exact store8_keeps
    · exact fun x hx => ih h x (store8_keeps x hx)

/-- A copy that does not fit below `stackTop` is stored to bytes above it, while its string is not yet
changed. -/
theorem strcpy_overruns (h : StringAt s.mem src k) (hsrc : stackTop ≤ src) (hdst : dst < 2 ^ 32)
    (hover : stackTop ≤ dst + k) (hrun : strcpy rounds dst src num s = some (n, s')) :
    ∃ x ∈ s'.stores, stackTop ≤ x := by
  have hwrap := h.noWrap
  induction k generalizing rounds dst src num s with
  | zero =>
    cases rounds with
    | zero => simp [strcpy] at hrun
    | succ rounds =>
      have hc : s.mem (src % 2 ^ 32) = 0 := by
        rw [h.mod_eq]
        exact h.zero
      simp only [strcpy, hc, if_true] at hrun
      cases hrun
      exact ⟨dst, (mem_stores_store8 hdst).mpr (Or.inr rfl), hover⟩
  | succ k ih =>
    cases rounds with
    | zero => simp [strcpy] at hrun
    | succ rounds =>
      have hmod := h.mod_eq
      have hc : s.mem (src % 2 ^ 32) ≠ 0 := by
        rw [hmod]
        exact h.chars 0 (by omega)
      simp only [strcpy, hc, if_false] at hrun
      by_cases habove : stackTop ≤ dst
      · exact ⟨dst, strcpy_keeps hrun dst ((mem_stores_store8 hdst).mpr (Or.inr rfl)), habove⟩
      · refine @ih (s.store8 dst (s.mem (src % 2 ^ 32))) rounds (dst + 1) (src + 1) (num + 1) ?_ (by omega) (by omega)
          (by omega) hrun (by omega)
        exact h.tail.congr fun x hx => store8_mem_of_ne hdst (by omega)

end Copies

/-! ## All strings -/

theorem read32_eq_of_above {m' : Memory} {a : Nat} (hm : ∀ x, stackTop ≤ x → m' x = m x) (ha : stackTop ≤ a) :
    read32 m' a = read32 m a :=
  read32_congr fun x hx _ => hm x (Nat.le_trans ha hx)

theorem Arguments.argPtr_eq {m' : Memory} (h : Arguments m stackTop argc argv length)
    (hm : ∀ x, stackTop ≤ x → m' x = m x) (i : Nat) : argPtr m' argv i = argPtr m argv i :=
  read32_eq_of_above hm (Nat.le_trans h.array (Nat.le_add_right argv (4 * i)))

theorem Arguments.stringAt {m' : Memory} (h : Arguments m stackTop argc argv length)
    (hm : ∀ x, stackTop ≤ x → m' x = m x) (hi : i < argc) : StringAt m' (argPtr m' argv i) (length i) := by
  rw [h.argPtr_eq hm]
  exact (h.string i hi).congr fun x hx => hm x (Nat.le_trans (h.above i hi) hx)

theorem bytes_le (hi : i ≤ n) : bytes length i ≤ bytes length n := by
  induction hi with
  | refl => exact Nat.le_refl _
  | step _ ih => exact Nat.le_trans ih (Nat.le_add_right _ _)

theorem length_lt_of_bytes (hi : i < n) : bytes length i + length i < bytes length n := by
  have h : bytes length (i + 1) ≤ bytes length n := bytes_le hi
  rw [bytes] at h
  omega

/-- The first `i` strings have been copied one behind the other from `base` on. -/
structure CopiedStrings (m : Memory) (argv base : Nat) (length : Nat → Nat) (i : Nat) (s s' : StackState) : Prop where
  copy : ∀ j < i, ∀ k ≤ length j, s'.mem (base + bytes length j + k) = m (argPtr m argv j + k)
  frame : ∀ x, x < base ∨ base + bytes length i ≤ x → s'.mem x = s.mem x
  stores : ∀ x ∈ s'.stores, x ∈ s.stores ∨ base ≤ x ∧ x < base + bytes length i

theorem CopiedStrings.step {base : Nat} {t : StackState} (h : CopiedStrings m argv base length i s s')
    (hcopied : Copied s' (base + bytes length i) (argPtr m argv i) (length i) t)
    (hm : ∀ k ≤ length i, s'.mem (argPtr m argv i + k) = m (argPtr m argv i + k)) :
    CopiedStrings m argv base length (i + 1) s t where
  copy := by
    intro j hj k hk
    rcases Nat.eq_or_lt_of_le (Nat.le_of_lt_succ hj) with rfl | hlt
    · rw [hcopied.copy k hk, hm k hk]
    · have hend : bytes length j + length j < bytes length i := length_lt_of_bytes hlt
      rw [hcopied.frame _ (Or.inl (by omega)), h.copy j hlt k hk]
  frame := by
    intro x hx
    rw [bytes] at hx
    rw [hcopied.frame x (by omega), h.frame x (by omega)]
  stores := by
    intro x hx
    rw [bytes]
    rcases hcopied.stores x hx with hx | hx
    · exact (h.stores x hx).imp_right fun hx => ⟨hx.1, by omega⟩
    · exact Or.inr ⟨by omega, by omega⟩

/-- The addresses of the first `i` copies, behind the name. -/
def copyArgs (name base : Nat) (length : Nat → Nat) (i : Nat) : List Nat :=
  name :: (List.range i).map fun j => base + bytes length j

theorem copyArgs_succ {base : Nat} : copyArgs name base length (i + 1) = copyArgs name base length i ++ [base + bytes length i] := by
  simp [copyArgs, List.range_succ]

theorem copyStrings_copied {base : Nat} {t : StackState} (h : Arguments t.mem stackTop argc argv length)
    (htop : stackTop < 2 ^ 32) (hfit : base + bytes length argc ≤ stackTop) (hi : i + rounds = argc)
    (hs : CopiedStrings t.mem argv base length i t s) :
    ∃ s', copyStrings argv rounds i (base + bytes length i) (copyArgs name base length i) s =
        some (copyArgs name base length argc, s') ∧ CopiedStrings t.mem argv base length argc t s' := by
  induction rounds generalizing i s with
  | zero =>
    obtain rfl : i = argc := hi
    exact ⟨s, rfl, hs⟩
  | succ rounds ih =>
    have hlt : i < argc := by omega
    have hend : bytes length i + length i < bytes length argc := length_lt_of_bytes hlt
    have hm : ∀ x, stackTop ≤ x → s.mem x = t.mem x := fun x hx => hs.frame x (Or.inr (by omega))
    have hstring := h.stringAt hm hlt
    have habove := h.above i hlt
    rw [h.argPtr_eq hm] at hstring
    have hwrap := hstring.noWrap
    obtain ⟨s', hrun, hcopied⟩ := @strcpy_copied s (length i) (2 ^ 32) (base + bytes length i) (argPtr t.mem argv i) 0
      hstring (by omega) (by omega)
    obtain ⟨t', hrest, ht'⟩ := @ih s' (i + 1) (by omega)
      (hs.step hcopied fun k _ => hm _ (Nat.le_trans habove (Nat.le_add_right _ k)))
    refine ⟨t', ?_, ht'⟩
    have hmod : (base + bytes length i + (length i + 1)) % 2 ^ 32 = base + bytes length (i + 1) := by
      rw [bytes, Nat.add_assoc]
      exact Nat.mod_eq_of_lt (by omega)
    rw [copyStrings, h.argPtr_eq hm, hrun]
    simp only [Option.bind_some, Nat.zero_add]
    rw [hmod, ← copyArgs_succ]
    exact hrest

theorem copyStrings_keeps {argvCharsAddr : Nat} {args args' : List Nat}
    (h : copyStrings argv rounds i argvCharsAddr args s = some (args', s')) : ∀ x ∈ s.stores, x ∈ s'.stores := by
  induction rounds generalizing i argvCharsAddr args s with
  | zero =>
    cases h
    exact fun x hx => hx
  | succ rounds ih =>
    obtain ⟨⟨n, t⟩, hcopy, hrest⟩ := Option.bind_eq_some_iff.mp h
    exact fun x hx => ih hrest x (strcpy_keeps hcopy x hx)

/-- Strings that do not fit below `stackTop` are stored to bytes above it. -/
theorem copyStrings_overrun {base : Nat} {t : StackState} {args args' : List Nat}
    (h : Arguments t.mem stackTop argc argv length) (htop : stackTop < 2 ^ 32) (hbase : base < 2 ^ 32)
    (hi : i + rounds = argc) (hm : ∀ x, stackTop ≤ x → s.mem x = t.mem x) (hpos : stackTop < base → 0 < rounds)
    (hover : stackTop + bytes length i < base + bytes length argc)
    (hrun : copyStrings argv rounds i base args s = some (args', s')) : ∃ x ∈ s'.stores, stackTop ≤ x := by
  induction rounds generalizing i s base args with
  | zero =>
    obtain rfl : i = argc := hi
    have hpos' := hpos (by omega)
    omega
  | succ rounds ih =>
    have hlt : i < argc := by omega
    have hstring := h.stringAt hm hlt
    have habove := h.above i hlt
    rw [h.argPtr_eq hm] at hstring
    have hwrap := hstring.noWrap
    rw [copyStrings] at hrun
    obtain ⟨⟨n, s₁⟩, hcopy, hrest⟩ := Option.bind_eq_some_iff.mp hrun
    rw [h.argPtr_eq hm] at hcopy
    by_cases hfits : base + length i < stackTop
    · obtain ⟨s₂, hcopy', hcopied⟩ := @strcpy_copied s (length i) (2 ^ 32) base (argPtr t.mem argv i) 0
        hstring (by omega) (by omega)
      rw [hcopy'] at hcopy
      cases hcopy
      have hmod : (base + (0 + length i + 1)) % 2 ^ 32 = base + (length i + 1) := by
        rw [Nat.zero_add]
        exact Nat.mod_eq_of_lt (by omega)
      simp only [hmod] at hrest
      refine ih (by omega) (by omega) ?_ (by omega) ?_ hrest
      · intro x hx
        rw [hcopied.frame x (Or.inr (by omega)), hm x hx]
      · rw [bytes]
        omega
    · obtain ⟨x, hx, hge⟩ := strcpy_overruns hstring habove hbase (by omega) hcopy
      exact ⟨x, copyStrings_keeps hrest x hx, hge⟩

/-! ## The array and the frame -/

theorem lower_of_le (hn : n ≤ stackTop) (htop : stackTop < 2 ^ 32) : lower stackTop n = stackTop - n := by
  have hmod : n % 2 ^ 32 = n := Nat.mod_eq_of_lt (by omega)
  rw [lower, hmod]
  omega

section Words

variable {v : Nat} {args : List Nat}

theorem store32_mem_of_ne (haddr : addr < 2 ^ 32) {x : Nat} (hx : x < addr ∨ addr + 4 ≤ x) :
    (s.store32 addr v).mem x = s.mem x := by
  simp only [StackState.store32, Nat.mod_eq_of_lt haddr]
  exact write32_of_ne hx

theorem read32_store32 (haddr : addr < 2 ^ 32) (hv : v < 2 ^ 32) : read32 (s.store32 addr v).mem addr = v := by
  simp only [StackState.store32, Nat.mod_eq_of_lt haddr]
  exact read32_write32 hv

theorem read32_store32_of_ne (haddr : addr < 2 ^ 32) {x : Nat} (hx : addr + 4 ≤ x ∨ x + 4 ≤ addr) :
    read32 (s.store32 addr v).mem x = read32 s.mem x :=
  read32_congr fun _ _ _ => store32_mem_of_ne haddr (by omega)

theorem mem_stores_store32 {x : Nat} (hx : x ∈ (s.store32 addr v).stores) :
    x ∈ s.stores ∨ addr % 2 ^ 32 ≤ x ∧ x < addr % 2 ^ 32 + 4 := by
  simp only [StackState.store32, List.mem_append, List.mem_cons, List.not_mem_nil, or_false] at hx
  exact hx.imp_right fun hx => by omega

theorem store32_keeps : ∀ x ∈ s.stores, x ∈ (s.store32 addr v).stores := fun _ hx => List.mem_append_left _ hx

/-- The last byte of the address space is stored with the word `2 ^ 32 - 4`. -/
theorem store32_last (haddr : addr % 2 ^ 32 = 2 ^ 32 - 4) : 2 ^ 32 - 1 ∈ (s.store32 addr v).stores := by
  have hlast : 2 ^ 32 - 1 = addr % 2 ^ 32 + 3 := by omega
  rw [hlast]
  refine List.mem_append_right _ ?_
  simp

/-- The words `args` are stored from `addr` on, and nothing else changes. -/
structure StoredArgs (s : StackState) (addr : Nat) (args : List Nat) (s' : StackState) : Prop where
  word : ∀ (i : Nat) (hi : i < args.length), argPtr s'.mem addr i = args[i]
  frame : ∀ x, x < addr ∨ addr + 4 * args.length ≤ x → s'.mem x = s.mem x
  stores : ∀ x ∈ s'.stores, x ∈ s.stores ∨ addr ≤ x ∧ x < addr + 4 * args.length

theorem storeArgs_stored (haddr : addr + 4 * args.length < 2 ^ 32) (hargs : ∀ arg ∈ args, arg < 2 ^ 32) :
    StoredArgs s addr args (storeArgs addr args s) := by
  induction args generalizing addr s with
  | nil => exact ⟨fun i hi => absurd hi (Nat.not_lt_zero i), fun x _ => rfl, fun x hx => Or.inl hx⟩
  | cons arg args ih =>
    rw [List.length_cons] at haddr
    have haddr' : addr < 2 ^ 32 := by omega
    have hrest := @ih (s.store32 addr arg) (addr + 4) (by omega) fun a ha => hargs a (List.mem_cons_of_mem arg ha)
    refine ⟨?_, ?_, ?_⟩
    · intro i hi
      cases i with
      | zero =>
        have hword : read32 (storeArgs (addr + 4) args (s.store32 addr arg)).mem addr = read32 (s.store32 addr arg).mem addr :=
          read32_congr fun x _ _ => hrest.frame x (Or.inl (by omega))
        exact hword.trans (read32_store32 haddr' (hargs arg List.mem_cons_self))
      | succ i =>
        have hword := hrest.word i (Nat.lt_of_succ_lt_succ hi)
        rw [argPtr, Nat.add_assoc, Nat.add_comm 4] at hword
        rw [argPtr, storeArgs, Nat.mul_succ, List.getElem_cons_succ]
        exact hword
    · intro x hx
      rw [List.length_cons] at hx
      rw [storeArgs, hrest.frame x (by omega), store32_mem_of_ne haddr' (by omega)]
    · intro x hx
      rw [List.length_cons]
      rw [storeArgs] at hx
      rcases hrest.stores x hx with hx | hx
      · have hx' := mem_stores_store32 hx
        rw [Nat.mod_eq_of_lt haddr'] at hx'
        exact hx'.imp_right fun hx => ⟨hx.1, by omega⟩
      · exact Or.inr ⟨by omega, by omega⟩

theorem storeArgs_keeps : ∀ x ∈ s.stores, x ∈ (storeArgs addr args s).stores := by
  induction args generalizing addr s with
  | nil => exact fun x hx => hx
  | cons arg args ih => exact fun x hx => ih x (store32_keeps x hx)

theorem storeArgs_last (hi : i < args.length) (haddr : (addr + 4 * i) % 2 ^ 32 = 2 ^ 32 - 4) :
    2 ^ 32 - 1 ∈ (storeArgs addr args s).stores := by
  induction args generalizing addr s i with
  | nil => exact absurd hi (Nat.not_lt_zero i)
  | cons arg args ih =>
    rw [storeArgs]
    cases i with
    | zero => exact storeArgs_keeps _ (store32_last haddr)
    | succ i => exact ih (Nat.lt_of_succ_lt_succ hi) (by rwa [Nat.add_assoc, Nat.add_comm 4, ← Nat.mul_succ])

/-- The array ends at `base`, and the frame of three words lies below it. -/
structure StoredFrame (s : StackState) (base argc returnAddr : Nat) (args : List Nat) (sp : Nat) (s' : StackState) :
    Prop where
  place : sp + 12 + 4 * (argc + 1) = base
  returns : read32 s'.mem sp = returnAddr
  count : read32 s'.mem (sp + 4) = argc + 1
  array : read32 s'.mem (sp + 8) = sp + 12
  word : ∀ (i : Nat) (hi : i < args.length), argPtr s'.mem (sp + 12) i = args[i]
  frame : ∀ x, base ≤ x → s'.mem x = s.mem x
  stores : ∀ x ∈ s'.stores, x ∈ s.stores ∨ x < base
  top : s'.userEsp = sp

theorem storeFrame_stored {base : Nat} (hroom : 4 * (argc + 1) + 12 ≤ base) (hbase : base < 2 ^ 32)
    (hreturn : returnAddr < 2 ^ 32) (hlength : args.length = argc + 1) (hargs : ∀ arg ∈ args, arg < 2 ^ 32) :
    StoredFrame s base argc returnAddr args (storeFrame base argc returnAddr args s).1
      (storeFrame base argc returnAddr args s).2 := by
  obtain ⟨sp, rfl⟩ : ∃ sp, base = sp + 12 + 4 * (argc + 1) := ⟨base - 12 - 4 * (argc + 1), by omega⟩
  have hstart : lower (sp + 12 + 4 * (argc + 1)) ((argc + 1) * 4) = sp + 12 := by
    rw [lower_of_le (by omega) hbase]
    omega
  have harray : lower (sp + 12) 4 = sp + 8 := lower_of_le (by omega) (by omega)
  have hcount : lower (sp + 8) 4 = sp + 4 := lower_of_le (by omega) (by omega)
  have hreturns : lower (sp + 4) 4 = sp := lower_of_le (by omega) (by omega)
  have hstored : StoredArgs s (sp + 12) args (storeArgs (sp + 12) args s) := storeArgs_stored (by omega) hargs
  simp only [storeFrame, hstart, harray, hcount, hreturns]
  refine ⟨rfl, ?_, ?_, ?_, ?_, ?_, ?_, rfl⟩
  · exact read32_store32 (by omega) hreturn
  · rw [read32_store32_of_ne (by omega) (by omega)]
    exact read32_store32 (by omega) (by omega)
  · rw [read32_store32_of_ne (by omega) (by omega), read32_store32_of_ne (by omega) (by omega)]
    exact read32_store32 (by omega) (by omega)
  · intro i hi
    rw [argPtr, read32_store32_of_ne (by omega) (by omega), read32_store32_of_ne (by omega) (by omega),
      read32_store32_of_ne (by omega) (by omega)]
    exact hstored.word i hi
  · intro x hx
    rw [store32_mem_of_ne (by omega) (by omega), store32_mem_of_ne (by omega) (by omega),
      store32_mem_of_ne (by omega) (by omega), hstored.frame x (by omega)]
  · intro x hx
    rcases mem_stores_store32 (v := returnAddr) hx with hx | hx
    · rcases mem_stores_store32 hx with hx | hx
      · rcases mem_stores_store32 hx with hx | hx
        · exact (hstored.stores x hx).imp_right fun hx => by omega
        · exact Or.inr (by omega)
      · exact Or.inr (by omega)
    · exact Or.inr (by omega)

theorem storeFrame_keeps : ∀ x ∈ s.stores, x ∈ (storeFrame stackTop argc returnAddr args s).2.stores := by
  intro x hx
  simp only [storeFrame]
  exact store32_keeps x (store32_keeps x (store32_keeps x (storeArgs_keeps x hx)))

/-- Below a base without room for the array and the frame, the addresses wrap. -/
theorem storeFrame_wraps {base : Nat} (hroom : base * 4 < 4 * (argc + 1) + 12) (hlength : args.length = argc + 1)
    (hargc : argc < 2 ^ 29) : 2 ^ 32 - 1 ∈ (storeFrame (base * 4) argc returnAddr args s).2.stores := by
  simp only [storeFrame]
  by_cases harray : base < argc + 1
  · have hlast : (lower (base * 4) ((argc + 1) * 4) + 4 * (argc - base)) % 2 ^ 32 = 2 ^ 32 - 4 := by
      rw [lower]
      omega
    exact store32_keeps _ (store32_keeps _ (store32_keeps _ (storeArgs_last (by omega) hlast)))
  · have hstart : lower (base * 4) ((argc + 1) * 4) = (base - (argc + 1)) * 4 := by
      rw [lower]
      omega
    rw [hstart]
    obtain hbase | hbase | hbase : base - (argc + 1) = 0 ∨ base - (argc + 1) = 1 ∨ base - (argc + 1) = 2 := by omega
    · rw [hbase]
      exact store32_keeps _ (store32_keeps _ (store32_last rfl))
    · rw [hbase]
      exact store32_keeps _ (store32_last rfl)
    · rw [hbase]
      exact store32_last rfl

end Words

/-! ## The whole function -/

theorem length_copyArgs {base : Nat} : (copyArgs name base length i).length = i + 1 := by simp [copyArgs]

theorem copyArgs_lt {base : Nat} (hname : name < 2 ^ 32) (hend : base + bytes length i < 2 ^ 32) :
    ∀ arg ∈ copyArgs name base length i, arg < 2 ^ 32 := by
  intro arg harg
  rcases List.mem_cons.mp harg with rfl | harg
  · exact hname
  · obtain ⟨j, hj, rfl⟩ := List.mem_map.mp harg
    have hlt : bytes length j + length j < bytes length i := length_lt_of_bytes (List.mem_range.mp hj)
    omega

/-- The copies and the frame above each other are the stack that is wanted. -/
theorem StoredFrame.laidOut {t : StackState} {base sp : Nat} (hcopied : CopiedStrings t.mem argv base length argc t s)
    (h : StoredFrame s base argc returnAddr (copyArgs name base length argc) sp s') (hstores : t.stores = [])
    (hend : base + bytes length argc ≤ stackTop) :
    LaidOut t.mem name stackTop argc argv returnAddr length sp s' := by
  have hplace := h.place
  have hentry : ∀ i < argc, argPtr s'.mem (sp + 12) (i + 1) = base + bytes length i := by
    intro i hi
    rw [h.word (i + 1) (by rw [length_copyArgs]; omega)]
    simp [copyArgs]
  have hbelow : ∀ i < argc, bytes length i + length i < bytes length argc := fun i hi => length_lt_of_bytes hi
  refine ⟨?_, h.returns, h.count, ?_, ?_, ?_, ?_, ?_, h.top⟩
  · intro x hx
    rcases h.stores x hx with hx | hx
    · rcases hcopied.stores x hx with hx | hx
      · rw [hstores] at hx
        exact absurd hx List.not_mem_nil
      · omega
    · omega
  · exact Nat.le_of_eq h.array.symm
  · rw [h.array]
    exact h.word 0 (by rw [length_copyArgs]; omega)
  · intro i hi
    have hi' := hbelow i hi
    rw [h.array, hentry i hi]
    omega
  · intro i hi k hk
    rw [h.array, hentry i hi, h.frame _ (by omega)]
    exact hcopied.copy i hi k hk
  · intro j hj i hi
    have hij : bytes length i + length i < bytes length j := length_lt_of_bytes hi
    rw [h.array, hentry i (by omega), hentry j hj]
    omega

theorem copiedStrings_zero {base : Nat} (t : StackState) : CopiedStrings t.mem argv base length 0 t t where
  copy := fun j hj => absurd hj (Nat.not_lt_zero j)
  frame := fun _ _ => rfl
  stores := fun _ hx => Or.inl hx

/-- All strings are copied when they end below `stackTop`. -/
theorem copyStrings_all {base : Nat} {t : StackState} (name : Nat) (h : Arguments t.mem stackTop argc argv length)
    (htop : stackTop < 2 ^ 32) (hend : base + bytes length argc ≤ stackTop) :
    ∃ s', copyStrings argv argc 0 base [name] t = some (copyArgs name base length argc, s') ∧
      CopiedStrings t.mem argv base length argc t s' :=
  copyStrings_copied h htop hend (Nat.zero_add argc) (copiedStrings_zero t)

theorem prepareUserStack_laidOut {t : StackState} (h : Arguments t.mem stackTop argc argv length)
    (htop : stackTop < 2 ^ 32) (hname : name < 2 ^ 32) (hreturn : returnAddr < 2 ^ 32) (hstores : t.stores = [])
    (henough : EnoughReserved t.mem garbage stackTop argc argv length) :
    ∃ sp s', prepareUserStack garbage name stackTop argc argv returnAddr t = some (sp, s') ∧
      LaidOut t.mem name stackTop argc argv returnAddr length sp s' := by
  obtain ⟨first, hfirst, hend, hroom⟩ := henough
  have hreserve : reserve t.mem garbage argv argc 0 0 = some (bytes first argc % 2 ^ 32) := by
    have hreserve := @reserve_eq t.mem garbage first argv argc 0 fun j hj => hfirst j (by omega)
    rw [Nat.zero_add] at hreserve
    exact hreserve
  obtain ⟨s, hcopy, hcopied⟩ := copyStrings_all name h htop hend
  have hargs : ∀ arg ∈ copyArgs name _ length argc, arg < 2 ^ 32 := copyArgs_lt hname (Nat.lt_of_le_of_lt hend htop)
  have hframe := storeFrame_stored (s := s) hroom (by omega) hreturn length_copyArgs hargs
  refine ⟨_, _, ?_, hframe.laidOut hcopied hstores hend⟩
  rw [prepareUserStack, hreserve]
  simp only [Option.bind_some, lower_mod]
  rw [hcopy]
  rfl

/-- A stack without a store to `stackTop` or above comes from enough reserved space. -/
theorem enoughReserved_of_below {t : StackState} {sp : Nat} (h : Arguments t.mem stackTop argc argv length)
    (htop : stackTop < 2 ^ 32) (hfit : Fit argc length)
    (hrun : prepareUserStack garbage name stackTop argc argv returnAddr t = some (sp, s'))
    (hbelow : ∀ x ∈ s'.stores, x < stackTop) : EnoughReserved t.mem garbage stackTop argc argv length := by
  obtain ⟨total, hreserve, hrun⟩ := Option.bind_eq_some_iff.mp hrun
  obtain ⟨⟨args, s⟩, hcopy, hframe⟩ := Option.map_eq_some_iff.mp hrun
  have hfirst := reserve_ends hreserve
  choose! first hfirst using fun j (hj : j < argc) => hfirst j (Nat.zero_le j) (by omega)
  refine ⟨first, hfirst, ?_⟩
  have htotal : total = bytes first argc % 2 ^ 32 := by
    have heq := @reserve_eq t.mem garbage first argv argc 0 fun j hj => hfirst j (by omega)
    rw [Nat.zero_add] at heq
    exact Option.some_inj.mp (hreserve.symm.trans heq)
  subst htotal
  rw [lower_mod] at hcopy hframe
  have hlower : lower stackTop (bytes first argc) < 2 ^ 32 := Nat.mod_lt _ (by decide)
  have hsmall : argc < 2 ^ 29 := by
    have hsize : userStackSize = 65536 := rfl
    have hfit' := hfit
    rw [Fit] at hfit'
    omega
  generalize hbase : lower stackTop (bytes first argc) / 4 = base at hcopy hframe ⊢
  change storeFrame (base * 4) argc returnAddr args s = (sp, s') at hframe
  have hkeeps : ∀ x ∈ s.stores, x ∈ s'.stores := fun x hx => by
    have hx' : x ∈ (storeFrame (base * 4) argc returnAddr args s).2.stores := storeFrame_keeps x hx
    rwa [hframe] at hx'
  have hpos : stackTop < base * 4 → 0 < argc := by
    intro hlt
    by_contra hzero
    obtain rfl : argc = 0 := Nat.eq_zero_of_not_pos hzero
    rw [bytes, lower_of_le (Nat.zero_le _) htop] at hbase
    omega
  have hend : base * 4 + bytes length argc ≤ stackTop := by
    by_contra hover
    obtain ⟨x, hx, hge⟩ := copyStrings_overrun h htop (by omega) (Nat.zero_add argc) (fun x _ => rfl) hpos
      (by rw [bytes]; omega) hcopy
    exact absurd (hbelow x (hkeeps x hx)) (Nat.not_lt.mpr hge)
  refine ⟨hend, ?_⟩
  by_contra hroom
  obtain ⟨s'', hcopy', -⟩ := copyStrings_all name h htop hend
  rw [hcopy] at hcopy'
  cases hcopy'
  have hlast : 2 ^ 32 - 1 ∈ (storeFrame (base * 4) argc returnAddr (copyArgs name (base * 4) length argc) s).2.stores :=
    storeFrame_wraps (Nat.not_le.mp hroom) length_copyArgs hsmall
  rw [hframe] at hlast
  have hlt := hbelow _ hlast
  omega

/-- The stack is laid out as it should be exactly if the garbage in the variable `c` happens to reserve
enough space. -/
theorem prepare_user_stack_iff (h : Arguments m stackTop argc argv length) (htop : stackTop < 2 ^ 32)
    (hfit : Fit argc length) (hname : name < 2 ^ 32) (hreturn : returnAddr < 2 ^ 32) (userEsp : Nat) :
    (∃ sp s, prepareUserStack garbage name stackTop argc argv returnAddr ⟨m, [], userEsp⟩ = some (sp, s) ∧
        LaidOut m name stackTop argc argv returnAddr length sp s) ↔
      EnoughReserved m garbage stackTop argc argv length := by
  constructor
  · rintro ⟨sp, s, hrun, hlaid⟩
    exact enoughReserved_of_below (t := ⟨m, [], userEsp⟩) h htop hfit hrun hlaid.below
  · intro henough
    exact prepareUserStack_laidOut (t := ⟨m, [], userEsp⟩) h htop hname hreturn rfl henough

/-- The argument `luck` in the heap of the kernel. -/
def sampleMemory : Memory := write32 (write32 (fun _ => 0) 0xC0500000 0xC0600000) 0xC0600000 0x6B63756C

theorem sample_arguments : Arguments sampleMemory 0xBFC00000 1 0xC0500000 fun _ => 4 := by
  refine ⟨by decide, by decide, by decide +kernel, fun i hi => ?_⟩
  obtain rfl : i = 0 := Nat.lt_one_iff.mp hi
  exact ⟨by decide +kernel, by decide +kernel, by decide +kernel⟩

theorem sample_fit : Fit 1 fun _ => 4 := by
  rw [Fit]
  decide

/-- With a zero in `c` the string is counted as it should be. -/
theorem sample_prepare_user_stack :
    ∃ sp s, prepareUserStack (fun _ => 0) 0xC0700000 0xBFC00000 1 0xC0500000 0xC0100000 ⟨sampleMemory, [], 0⟩ =
        some (sp, s) ∧
      LaidOut sampleMemory 0xC0700000 0xBFC00000 1 0xC0500000 0xC0100000 (fun _ => 4) sp s := by
  refine (prepare_user_stack_iff sample_arguments (by decide) sample_fit (by decide) (by decide) 0).mpr
    ⟨fun _ => 4, fun i hi => ?_, by decide +kernel, by decide +kernel⟩
  obtain rfl : i = 0 := Nat.lt_one_iff.mp hi
  exact ⟨by decide +kernel, by decide +kernel⟩

/-- With an `l` in `c` a single byte is reserved, and the zero is stored at the top of the stack, where
the stack of the neighbour begins. -/
theorem prepare_user_stack_overruns :
    Arguments sampleMemory 0xBFC00000 1 0xC0500000 (fun _ => 4) ∧ Fit 1 (fun _ => 4) ∧
    (prepareUserStack (fun _ => 0x6C) 0xC0700000 0xBFC00000 1 0xC0500000 0xC0100000 ⟨sampleMemory, [], 0⟩).map
        (fun r => (r.1, r.2.stores.contains 0xBFC00000)) = some (0xBFBFFFE8, true) ∧
    ∀ sp s, prepareUserStack (fun _ => 0x6C) 0xC0700000 0xBFC00000 1 0xC0500000 0xC0100000 ⟨sampleMemory, [], 0⟩ =
        some (sp, s) →
      ¬ LaidOut sampleMemory 0xC0700000 0xBFC00000 1 0xC0500000 0xC0100000 (fun _ => 4) sp s := by
  have hrun : (prepareUserStack (fun _ => 0x6C) 0xC0700000 0xBFC00000 1 0xC0500000 0xC0100000
      ⟨sampleMemory, [], 0⟩).map (fun r => (r.1, r.2.stores.contains 0xBFC00000)) = some (0xBFBFFFE8, true) := by
    decide +kernel
  refine ⟨sample_arguments, sample_fit, hrun, ?_⟩
  intro sp s hsome hlaid
  rw [hsome] at hrun
  have hmem : s.stores.contains 0xBFC00000 = true := (Prod.ext_iff.mp (Option.some_inj.mp hrun)).2
  have hlt := hlaid.below _ (List.contains_iff_mem.mp hmem)
  omega

end LuckOS.StackArguments
