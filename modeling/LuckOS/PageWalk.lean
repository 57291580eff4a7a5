import LuckOS.ByteMemory

/-!
# The page walk

Translation of addresses of 32 bits by two levels of tables in physical memory. A directory
that has an entry for its own page shows all tables in the window of that entry, so that the
entry of a page is found at a virtual address.
-/

namespace LuckOS.PageWalk

open ByteMemory

/-- The entry of the directory for an address. -/
def pdeOf (m : Memory) (cr3 v : Nat) : Nat := read32 m (cr3 + 4 * (v / 2 ^ 22))

/-- Where the entry of the page of an address is, if its table is present. -/
def pteAddr (m : Memory) (cr3 v : Nat) : Option Nat :=
  if pdeOf m cr3 v % 2 = 1 then some (pdeOf m cr3 v / 4096 * 4096 + 4 * (v / 4096 % 1024)) else none

/-- The physical address. -/
def walk (m : Memory) (cr3 v : Nat) : Option Nat :=
  (pteAddr m cr3 v).bind fun a =>
    if read32 m a % 2 = 1 then some (read32 m a / 4096 * 4096 + v % 4096) else none

def load8 (m : Memory) (cr3 v : Nat) : Option UInt8 := (walk m cr3 v).map m

def load16 (m : Memory) (cr3 v : Nat) : Option Nat := do
  let b₀ ← load8 m cr3 v
  let b₁ ← load8 m cr3 ((v + 1) % 2 ^ 32)
  some (b₀.toNat + 2 ^ 8 * b₁.toNat)

def load32 (m : Memory) (cr3 v : Nat) : Option Nat := do
  let low ← load16 m cr3 v
  let high ← load16 m cr3 ((v + 2) % 2 ^ 32)
  some (low + 2 ^ 16 * high)

def store8 (m : Memory) (cr3 v : Nat) (b : UInt8) : Option Memory :=
  (walk m cr3 v).map fun a => write8 m a b

/-- A store of two bytes at an even address. -/
def store16 (m : Memory) (cr3 v : Nat) (w : UInt8 × UInt8) : Option Memory :=
  (walk m cr3 v).map fun a => write8 (write8 m a w.1) (a + 1) w.2

/-- A store of four bytes at an address that is a multiple of four. -/
def store32 (m : Memory) (cr3 v w : Nat) : Option Memory := (walk m cr3 v).map fun a => write32 m a w

variable {m : Memory} {cr3 v lo hi base : Nat}

theorem pteAddr_eq {e : Nat} (he : pdeOf m cr3 v = e) (hpresent : e % 2 = 1) :
    pteAddr m cr3 v = some (e / 4096 * 4096 + 4 * (v / 4096 % 1024)) := by
  rw [pteAddr, he, if_pos hpresent]

/-- The entry is that of the page. -/
theorem pteAddr_page : pteAddr m cr3 (v / 4096 * 4096) = pteAddr m cr3 v := by
  have hindex : v / 4096 * 4096 / 2 ^ 22 = v / 2 ^ 22 := by omega
  have hpage : v / 4096 * 4096 / 4096 = v / 4096 := by omega
  rw [pteAddr, pteAddr, pdeOf, pdeOf, hindex, hpage]

/-- In the window of the directory's own entry, the entries of all pages are found. -/
theorem walk_own {i p : Nat} (hown : read32 m (cr3 + 4 * i) % 2 = 1)
    (hframe : read32 m (cr3 + 4 * i) / 4096 * 4096 = cr3) (hp : p < 2 ^ 20) (hv : v = i * 2 ^ 22 + 4 * p) :
    walk m cr3 v = pteAddr m cr3 (p * 4096) := by
  have hindex : v / 2 ^ 22 = i := by omega
  have htable : v / 4096 % 1024 = p / 1024 := by omega
  have hpage : p * 4096 / 2 ^ 22 = p / 1024 := by omega
  have hentry : p * 4096 / 4096 = p := by omega
  have hoffset : v % 4096 = 4 * (p % 1024) := by omega
  have hpde : pdeOf m cr3 v = read32 m (cr3 + 4 * i) := by rw [pdeOf, hindex]
  have haddr := pteAddr_eq hpde hown
  rw [hframe, htable] at haddr
  rw [walk, haddr, Option.bind_some, pteAddr, pdeOf, hpage, hentry, hoffset]

/-- The addresses from `lo` up to `hi` are mapped to those from `base` on. -/
def Linear (m : Memory) (cr3 lo hi base : Nat) : Prop :=
  ∀ v, lo ≤ v → v < hi → walk m cr3 v = some (base + (v - lo))

theorem Linear.load8 (h : Linear m cr3 lo hi base) (hlo : lo ≤ v) (hhi : v < hi) :
    load8 m cr3 v = some (m (base + (v - lo))) := by
  rw [PageWalk.load8, h v hlo hhi]
  rfl

theorem Linear.load16 (h : Linear m cr3 lo hi base) (hend : hi ≤ 2 ^ 32) (hlo : lo ≤ v) (hhi : v + 1 < hi) :
    load16 m cr3 v = some ((m (base + (v - lo))).toNat + 2 ^ 8 * (m (base + (v - lo) + 1)).toNat) := by
  have hnext : base + (v + 1 - lo) = base + (v - lo) + 1 := by omega
  have hmod : (v + 1) % 2 ^ 32 = v + 1 := Nat.mod_eq_of_lt (by omega)
  rw [PageWalk.load16, h.load8 hlo (by omega), hmod, h.load8 (by omega) hhi, hnext]
  rfl

theorem Linear.load32 (h : Linear m cr3 lo hi base) (hend : hi ≤ 2 ^ 32) (hlo : lo ≤ v) (hhi : v + 3 < hi) :
    load32 m cr3 v = some (read32 m (base + (v - lo))) := by
  have hnext : base + (v + 2 - lo) = base + (v - lo) + 2 := by omega
  have hmod : (v + 2) % 2 ^ 32 = v + 2 := Nat.mod_eq_of_lt (by omega)
  rw [PageWalk.load32, h.load16 hend hlo (by omega), hmod, h.load16 hend (by omega) (by omega), hnext]
  have hlast : base + (v - lo) + 2 + 1 = base + (v - lo) + 3 := rfl
  refine congrArg some ?_
  rw [read32, hlast]
  omega

theorem Linear.store8 (h : Linear m cr3 lo hi base) (hlo : lo ≤ v) (hhi : v < hi) (b : UInt8) :
    store8 m cr3 v b = some (write8 m (base + (v - lo)) b) := by
  rw [PageWalk.store8, h v hlo hhi]
  rfl

theorem Linear.store16 (h : Linear m cr3 lo hi base) (hlo : lo ≤ v) (hhi : v < hi) (w : UInt8 × UInt8) :
    store16 m cr3 v w = some (write8 (write8 m (base + (v - lo)) w.1) (base + (v - lo) + 1) w.2) := by
  rw [PageWalk.store16, h v hlo hhi]
  rfl

end LuckOS.PageWalk
