import LuckOS.ByteMemory

/-!
# The program loader of `elf/elf.c`

`load_elf` runs in the kernel on a buffer that holds the file. All fields of the headers
are used as they are found, so that its loads and stores may go anywhere in the address
space of 32 bits. The addresses it reads and stores to are logged in their order.
-/

namespace LuckOS.Elf

open ByteMemory

/-- The user space, from 4 MB to 3 GB. -/
def userStart : Nat := 0x400000
def userEnd : Nat := 0xC0000000

/-- The memory, and the addresses of the bytes that have been read and stored. -/
structure LoadState where
  mem : Memory
  reads : List Nat
  stores : List Nat

/-- Fields of two and of four bytes. -/
def half (m : Memory) (addr : Nat) : Nat := (m (addr % 2 ^ 32)).toNat + 2 ^ 8 * (m ((addr + 1) % 2 ^ 32)).toNat

def word (m : Memory) (addr : Nat) : Nat := half m addr + 2 ^ 16 * half m (addr + 2)

namespace LoadState

/-- A field is read. -/
def reading (s : LoadState) (addr length : Nat) : LoadState :=
  { s with reads := s.reads ++ (List.range length).map fun k => (addr + k) % 2 ^ 32 }

/-- One round of the loop of `memcpy`. -/
def copyByte (dst src : Nat) (s : LoadState) (i : Nat) : LoadState :=
  let dst := (dst + i) % 2 ^ 32
  let src := (src + i) % 2 ^ 32
  ⟨write8 s.mem dst (s.mem src), s.reads ++ [src], s.stores ++ [dst]⟩

/-- `memcpy`. The number is an `int`. -/
def memcpy (s : LoadState) (dst src num : Nat) : LoadState :=
  if num < 2 ^ 31 then (List.range num).foldl (copyByte dst src) s else s

end LoadState

/-- The body of the loop of `load_elf` for a header that is not null. -/
def loadSegment (content programHeader : Nat) (s : LoadState) : LoadState :=
  let s := s.reading (programHeader + 8) 4
  let vaddr := word s.mem (programHeader + 8)
  let s := s.reading (programHeader + 4) 4
  let offset := word s.mem (programHeader + 4)
  let s := s.reading (programHeader + 16) 4
  let filesz := word s.mem (programHeader + 16)
  s.memcpy vaddr ((content + offset) % 2 ^ 32) filesz

/-- The loop of `load_elf`. Behind a null header `continue` leaves the pointer where it is. The
counter is always below the number of rounds, since `e_phnum` has 16 bits. -/
def loadSegments (content : Nat) : Nat → Nat → Nat → LoadState → LoadState
  | 0, _, _, s => s
  | rounds + 1, i, programHeader, s =>
    let s := s.reading (content + 44) 2
    if i < half s.mem (content + 44) then
      let s := s.reading programHeader 4
      if word s.mem programHeader = 0 then loadSegments content rounds (i + 1) programHeader s
      else
        let s := loadSegment content programHeader s
        let s := s.reading (content + 42) 2
        loadSegments content rounds (i + 1) ((programHeader + half s.mem (content + 42)) % 2 ^ 32) s
    else s

/-- `load_elf`: `*entry_addr` for the result 0, and `none` for the result -1. -/
def loadElf (content : Nat) (s : LoadState) : Option Nat × LoadState :=
  let s := s.reading content 1
  if s.mem (content % 2 ^ 32) ≠ 0x7F then (none, s)
  else
    let s := s.reading (content + 1) 1
    if s.mem ((content + 1) % 2 ^ 32) ≠ 0x45 then (none, s)
    else
      let s := s.reading (content + 2) 1
      if s.mem ((content + 2) % 2 ^ 32) ≠ 0x4C then (none, s)
      else
        let s := s.reading (content + 3) 1
        if s.mem ((content + 3) % 2 ^ 32) ≠ 0x46 then (none, s)
        else
          let s := s.reading (content + 28) 4
          let programHeader := (content + word s.mem (content + 28)) % 2 ^ 32
          let s := loadSegments content 0x10000 0 programHeader s
          let s := s.reading (content + 24) 4
          (some (word s.mem (content + 24)), s)

/-! ## The fields of a file in memory -/

section Fields

variable (m : Memory) (content i : Nat)

/-- The four bytes of the magic number. -/
def HasMagic : Prop :=
  m (content % 2 ^ 32) = 0x7F ∧ m ((content + 1) % 2 ^ 32) = 0x45 ∧ m ((content + 2) % 2 ^ 32) = 0x4C ∧
    m ((content + 3) % 2 ^ 32) = 0x46

def entry : Nat := word m (content + 24)
def phoff : Nat := word m (content + 28)
def phentsize : Nat := half m (content + 42)
def phnum : Nat := half m (content + 44)

/-- The address of the program header `i`. -/
def headerAddr : Nat := (content + phoff m content + i * phentsize m content) % 2 ^ 32

def ptype : Nat := word m (headerAddr m content i)
def poffset : Nat := word m (headerAddr m content i + 4)
def vaddr : Nat := word m (headerAddr m content i + 8)
def filesz : Nat := word m (headerAddr m content i + 16)
def memsz : Nat := word m (headerAddr m content i + 20)

/-- All headers in front of the header `i` are different from null. -/
def Reached : Prop := ∀ j < i, ptype m content j ≠ 0

end Fields

variable {m m' : Memory} {s t : LoadState} {content n addr length lo hi : Nat}

theorem half_congr (h : ∀ k < 2, m' ((addr + k) % 2 ^ 32) = m ((addr + k) % 2 ^ 32)) : half m' addr = half m addr := by
  have h0 := h 0 (by omega)
  have h1 := h 1 (by omega)
  rw [Nat.add_zero] at h0
  rw [half, half, h0, h1]

theorem word_congr (h : ∀ k < 4, m' ((addr + k) % 2 ^ 32) = m ((addr + k) % 2 ^ 32)) : word m' addr = word m addr := by
  have hlow := half_congr fun k hk => h k (by omega)
  have hhigh : half m' (addr + 2) = half m (addr + 2) := half_congr fun k hk => by
    rw [Nat.add_assoc]
    exact h (2 + k) (by omega)
  rw [word, word, hlow, hhigh]

theorem half_lt (m : Memory) (addr : Nat) : half m addr < 2 ^ 16 := by
  have h0 := (m (addr % 2 ^ 32)).toNat_lt
  have h1 := (m ((addr + 1) % 2 ^ 32)).toNat_lt
  rw [half]
  omega

theorem word_lt (m : Memory) (addr : Nat) : word m addr < 2 ^ 32 := by
  have h0 := half_lt m addr
  have h1 := half_lt m (addr + 2)
  rw [word]
  omega

/-- A range of addresses that may wrap lies between two bounds. -/
theorem forall_range_iff {a : Nat} (hlo : 0 < lo) (hhi : hi ≤ 2 ^ 32) (hpos : 0 < length) :
    (∀ k < length, lo ≤ (a + k) % 2 ^ 32 ∧ (a + k) % 2 ^ 32 < hi) ↔ lo ≤ a % 2 ^ 32 ∧ a % 2 ^ 32 + length ≤ hi := by
  have hmod := Nat.mod_lt a (by decide : 2 ^ 32 > 0)
  have hshift : ∀ k, (a + k) % 2 ^ 32 = (a % 2 ^ 32 + k) % 2 ^ 32 := fun k => (Nat.mod_add_mod ..).symm
  simp only [hshift]
  constructor
  · intro hall
    have hfirst := hall 0 hpos
    rw [Nat.add_zero, Nat.mod_mod] at hfirst
    refine ⟨hfirst.1, ?_⟩
    by_contra hover
    have hlast := hall (hi - a % 2 ^ 32) (by omega)
    rw [Nat.add_sub_cancel' (by omega)] at hlast
    rcases Nat.lt_or_eq_of_le hhi with hlt | heq
    · rw [Nat.mod_eq_of_lt hlt] at hlast
      omega
    · rw [heq, Nat.mod_self] at hlast
      omega
  · rintro ⟨hge, hle⟩ k hk
    rw [Nat.mod_eq_of_lt (by omega)]
    omega

/-- The loads lie in the buffer, and the stores in the user space. -/
structure Confined (content n : Nat) (s : LoadState) : Prop where
  reads : ∀ a ∈ s.reads, content ≤ a ∧ a < content + n
  stores : ∀ a ∈ s.stores, userStart ≤ a ∧ a < userEnd

/-- The state has at least the log of another one. -/
structure Extends (s t : LoadState) : Prop where
  reads : ∀ a ∈ s.reads, a ∈ t.reads
  stores : ∀ a ∈ s.stores, a ∈ t.stores

theorem Extends.refl (s : LoadState) : Extends s s := ⟨fun _ h => h, fun _ h => h⟩

theorem Extends.trans {u : LoadState} (h : Extends s t) (h' : Extends t u) : Extends s u :=
  ⟨fun a ha => h'.reads a (h.reads a ha), fun a ha => h'.stores a (h.stores a ha)⟩

theorem Confined.of_extends (h : Confined content n t) (he : Extends s t) : Confined content n s :=
  ⟨fun a ha => h.reads a (he.reads a ha), fun a ha => h.stores a (he.stores a ha)⟩

theorem extends_reading (s : LoadState) (addr length : Nat) : Extends s (s.reading addr length) :=
  ⟨fun _ ha => List.mem_append_left _ ha, fun _ ha => ha⟩

/-- A field may be read if it lies in the buffer. -/
theorem confined_reading_iff (hlo : 0 < content) (hhi : content + n ≤ 2 ^ 32) (hpos : 0 < length) :
    Confined content n (s.reading addr length) ↔
      Confined content n s ∧ content ≤ addr % 2 ^ 32 ∧ addr % 2 ^ 32 + length ≤ content + n := by
  rw [← forall_range_iff hlo hhi hpos]
  constructor
  · intro h
    refine ⟨h.of_extends (extends_reading s addr length), fun k hk => h.reads _ ?_⟩
    exact List.mem_append_right _ (List.mem_map.mpr ⟨k, List.mem_range.mpr hk, rfl⟩)
  · rintro ⟨h, hall⟩
    refine ⟨fun a ha => ?_, h.stores⟩
    rcases List.mem_append.mp ha with ha | ha
    · exact h.reads a ha
    · obtain ⟨k, hk, rfl⟩ := List.mem_map.mp ha
      exact hall k (List.mem_range.mp hk)

/-! ## Copies -/

section Copies

variable {dst src num : Nat}

theorem copied_log (dst src num : Nat) (s : LoadState) :
    ((List.range num).foldl (LoadState.copyByte dst src) s).reads =
        s.reads ++ (List.range num).map (fun k => (src + k) % 2 ^ 32) ∧
      ((List.range num).foldl (LoadState.copyByte dst src) s).stores =
        s.stores ++ (List.range num).map fun k => (dst + k) % 2 ^ 32 := by
  induction num with
  | zero => simp
  | succ num ih =>
    rw [List.range_succ, List.foldl_append, List.map_append, List.map_append, ← List.append_assoc, ← List.append_assoc,
      ← ih.1, ← ih.2]
    exact ⟨rfl, rfl⟩

/-- Bytes outside of the target keep their values. -/
theorem copied_of_ne {a : Nat} (h : ∀ k < num, a ≠ (dst + k) % 2 ^ 32) :
    ((List.range num).foldl (LoadState.copyByte dst src) s).mem a = s.mem a := by
  induction num with
  | zero => rfl
  | succ num ih =>
    rw [List.range_succ, List.foldl_append]
    exact (write8_of_ne (h num (Nat.lt_succ_self num))).trans (ih fun k hk => h k (by omega))

/-- The target receives the source, if they do not overlap. -/
theorem copied_self (hdst : dst + num ≤ 2 ^ 32) (hsrc : src + num ≤ 2 ^ 32) (hapart : dst + num ≤ src ∨ src + num ≤ dst)
    {k : Nat} (hk : k < num) : ((List.range num).foldl (LoadState.copyByte dst src) s).mem (dst + k) = s.mem (src + k) := by
  induction num with
  | zero => cases hk
  | succ num ih =>
    rw [List.range_succ, List.foldl_append]
    have hlast : (dst + num) % 2 ^ 32 = dst + num := Nat.mod_eq_of_lt (by omega)
    have hread : (src + num) % 2 ^ 32 = src + num := Nat.mod_eq_of_lt (by omega)
    change write8 _ ((dst + num) % 2 ^ 32) _ (dst + k) = _
    rcases Nat.lt_or_eq_of_le (Nat.le_of_lt_succ hk) with hk | rfl
    · rw [write8_of_ne (by omega)]
      exact ih (by omega) (by omega) (by omega) hk
    · rw [write8, if_pos (by omega), hread]
      refine copied_of_ne fun j hj => ?_
      have hj : (dst + j) % 2 ^ 32 = dst + j := Nat.mod_eq_of_lt (by omega)
      omega

theorem extends_memcpy (s : LoadState) (dst src num : Nat) : Extends s (s.memcpy dst src num) := by
  rw [LoadState.memcpy]
  split_ifs
  · obtain ⟨hreads, hstores⟩ := copied_log dst src num s
    constructor
    · rw [hreads]
      exact fun _ ha => List.mem_append_left _ ha
    · rw [hstores]
      exact fun _ ha => List.mem_append_left _ ha
  · exact .refl s

/-- A copy may be made if its source lies in the buffer and its target in the user space. -/
theorem confined_memcpy_iff (hlo : 0 < content) (hhi : content + n ≤ 2 ^ 32) (hdst : dst < 2 ^ 32) (hsrc : src < 2 ^ 32) :
    Confined content n (s.memcpy dst src num) ↔ Confined content n s ∧
      (0 < num → num < 2 ^ 31 → content ≤ src ∧ src + num ≤ content + n ∧ userStart ≤ dst ∧ dst + num ≤ userEnd) := by
  obtain ⟨hreads, hstores⟩ := copied_log dst src num s
  have hsource : 0 < num → ((∀ k < num, content ≤ (src + k) % 2 ^ 32 ∧ (src + k) % 2 ^ 32 < content + n) ↔
      content ≤ src ∧ src + num ≤ content + n) := fun hpos => by
    have hrange := forall_range_iff (a := src) hlo hhi hpos
    rwa [Nat.mod_eq_of_lt hsrc] at hrange
  have htarget : 0 < num → ((∀ k < num, userStart ≤ (dst + k) % 2 ^ 32 ∧ (dst + k) % 2 ^ 32 < userEnd) ↔
      userStart ≤ dst ∧ dst + num ≤ userEnd) := fun hpos => by
    have hrange := forall_range_iff (a := dst) (show 0 < userStart by decide) (show userEnd ≤ 2 ^ 32 by decide) hpos
    rwa [Nat.mod_eq_of_lt hdst] at hrange
  constructor
  · intro h
    refine ⟨h.of_extends (extends_memcpy s dst src num), fun hpos hlt => ?_⟩
    rw [LoadState.memcpy, if_pos hlt] at h
    obtain ⟨hr, hs⟩ := h
    rw [hreads] at hr
    rw [hstores] at hs
    obtain ⟨hge, hle⟩ := (hsource hpos).mp fun k hk =>
      hr _ (List.mem_append_right _ (List.mem_map.mpr ⟨k, List.mem_range.mpr hk, rfl⟩))
    obtain ⟨hge', hle'⟩ := (htarget hpos).mp fun k hk =>
      hs _ (List.mem_append_right _ (List.mem_map.mpr ⟨k, List.mem_range.mpr hk, rfl⟩))
    exact ⟨hge, hle, hge', hle'⟩
  · rintro ⟨h, hinside⟩
    rw [LoadState.memcpy]
    split_ifs with hlt
    · constructor
      · rw [hreads]
        intro a ha
        rcases List.mem_append.mp ha with ha | ha
        · exact h.reads a ha
        · obtain ⟨k, hk, rfl⟩ := List.mem_map.mp ha
          rw [List.mem_range] at hk
          obtain ⟨hge, hle, -, -⟩ := hinside (by omega) hlt
          exact (hsource (by omega)).mpr ⟨hge, hle⟩ k hk
      · rw [hstores]
        intro a ha
        rcases List.mem_append.mp ha with ha | ha
        · exact h.stores a ha
        · obtain ⟨k, hk, rfl⟩ := List.mem_map.mp ha
          rw [List.mem_range] at hk
          obtain ⟨-, -, hge, hle⟩ := hinside (by omega) hlt
          exact (htarget (by omega)).mpr ⟨hge, hle⟩ k hk
    · exact h

end Copies

theorem extends_loadSegment (content programHeader : Nat) (s : LoadState) :
    Extends s (loadSegment content programHeader s) :=
  (extends_reading ..).trans ((extends_reading ..).trans ((extends_reading ..).trans (extends_memcpy ..)))

theorem extends_loadSegments (content rounds i programHeader : Nat) (s : LoadState) :
    Extends s (loadSegments content rounds i programHeader s) := by
  induction rounds generalizing i programHeader s with
  | zero => exact .refl s
  | succ rounds ih =>
    rw [loadSegments]
    dsimp only
    split_ifs
    · exact (extends_reading ..).trans ((extends_reading ..).trans (ih ..))
    · exact (extends_reading ..).trans ((extends_reading ..).trans ((extends_loadSegment ..).trans
        ((extends_reading ..).trans (ih ..))))
    · exact extends_reading ..

/-- Behind a null header nothing is loaded any more. -/
theorem loadSegments_stuck (content : Nat) {programHeader : Nat} (hnull : word s.mem programHeader = 0) (rounds i : Nat) :
    (loadSegments content rounds i programHeader s).mem = s.mem ∧
      (loadSegments content rounds i programHeader s).stores = s.stores ∧
      ∀ a ∈ (loadSegments content rounds i programHeader s).reads, a ∈ s.reads ∨
        a ∈ ((s.reading (content + 44) 2).reading programHeader 4).reads := by
  induction rounds generalizing i s with
  | zero => exact ⟨rfl, rfl, fun a ha => .inl ha⟩
  | succ rounds ih =>
    rw [loadSegments]
    dsimp only
    split_ifs with hi hword
    · obtain ⟨hmem, hstores, hreads⟩ := ih (s := (s.reading (content + 44) 2).reading programHeader 4) hnull (i + 1)
      refine ⟨hmem, hstores, fun a ha => .inr ?_⟩
      rcases hreads a ha with ha | ha
      · exact ha
      · simp only [LoadState.reading, List.append_assoc, List.mem_append] at ha ⊢
        tauto
    · exact absurd hnull hword
    · exact ⟨rfl, rfl, fun a ha => .inr ((extends_reading ..).reads a ha)⟩

end LuckOS.Elf
