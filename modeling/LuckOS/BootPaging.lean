import LuckOS.PageWalk
import LuckOS.Paging

/-!
# The page tables of the boot loader

`boot/loader.S` writes a page directory and the first page table to physical memory, enables
paging, and maps the pages of the kernel through the window of the page tables. What is then in
memory is the state with which the model of `mem/paging.c` starts. A page that is not mapped stops
the loader. The descriptor tables and the stack of the loader are left out.
-/

namespace LuckOS.BootLoader

open ByteMemory PageWalk
open Paging (Pte)

def pageSize : Nat := 0x1000
def pageDirPhysicalAddr : Nat := 0x100000 + pageSize
def pageTablesVirtualAddrStart : Nat := 0xC0400000
def phyMemSize : Nat := 32 * 1024 * 1024
def kernelBinMaxSize : Nat := 1024 * 1024
def kernelBinLoadVirtualAddr : Nat := 0xFFFFFFFF - kernelBinMaxSize + 1
def kernelBinLoadPhysicalAddr : Nat := phyMemSize - pageSize - kernelBinMaxSize
def kernelVirtualAddrStart : Nat := 0xC0800000
def kernelPhysicalAddrStart : Nat := 0x200000
def kernelSizeMax : Nat := 1024 * 1024
def kernelStackTop : Nat := 0xF0000000
def kernelStackPhysicalAddr : Nat := phyMemSize - pageSize

/-- `PG_US_U | PG_RW_W | PG_P` -/
def pageAttrs : Nat := 7

/-- `clear_memory`, with `ecx` and `eax`. -/
def clearMemory : Nat → Nat → Memory → Memory
  | 0, _, m => m
  | ecx + 1, eax, m => clearMemory ecx (eax + 1) (write8 m eax 0)

/-- `.create_kernel_pde` and `.create_pte`, with `ecx`, `edx` and `eax`. -/
def writeEntries : Nat → Nat → Nat → Memory → Memory
  | 0, _, _, m => m
  | ecx + 1, edx, eax, m => writeEntries ecx (edx + 4) (eax + pageSize) (write32 m edx eax)

/-- `setup_page`, without what `enable_page` stores to `gdt_ptr`, to the GDT and to the stack. -/
def setupPage (m : Memory) : Memory :=
  let m := clearMemory pageSize pageDirPhysicalAddr m
  let m := write32 m (pageDirPhysicalAddr + 0) (pageDirPhysicalAddr - pageSize ||| pageAttrs)
  let m := write32 m (pageDirPhysicalAddr + 768 * 4) (pageDirPhysicalAddr - pageSize ||| pageAttrs)
  let m := write32 m (pageDirPhysicalAddr + 769 * 4) (pageDirPhysicalAddr ||| pageAttrs)
  let m := writeEntries 254 (pageDirPhysicalAddr + 770 * 4) (pageDirPhysicalAddr + pageSize ||| pageAttrs) m
  writeEntries 256 (pageDirPhysicalAddr - pageSize) (0 ||| pageAttrs) m

/-- `.map_next_page`, with `ecx`, `esi` and `edi`. The register `cr3` holds the directory from here on. -/
def mapNextPage : Nat → Nat → Nat → Memory → Option Memory
  | 0, _, _, m => some m
  | ecx + 1, esi, edi, m => do
    let m ← store32 m pageDirPhysicalAddr (pageTablesVirtualAddrStart + esi * 4) edi
    mapNextPage ecx (esi + 1) (edi + pageSize) m

/-- `set_pages_mapping`. -/
def setPagesMapping (virtualAddr physicalAddr pages : Nat) (m : Memory) : Option Memory :=
  mapNextPage pages (virtualAddr >>> 12) (physicalAddr ||| pageAttrs) m

/-- `allocate_pages_for_kernel`. -/
def allocatePagesForKernel (m : Memory) : Option Memory := do
  let m ← setPagesMapping kernelBinLoadVirtualAddr kernelBinLoadPhysicalAddr (kernelBinMaxSize >>> 12) m
  let m ← setPagesMapping kernelVirtualAddrStart kernelPhysicalAddrStart (kernelSizeMax >>> 12) m
  setPagesMapping (kernelStackTop - pageSize) kernelStackPhysicalAddr 2 m

/-- `setup_page`, and `init_kernel` up to `load_hd_kernel_image`. -/
def setUpPaging (m : Memory) : Option Memory := allocatePagesForKernel (setupPage m)

/-! ## What the tables mean -/

/-- The word as an entry of a directory or of a table. -/
def entryOf (w : Nat) : Pte := ⟨w % 2 = 1, w / 2 % 2 = 1, w / 4 % 2 = 1, w / 4096⟩

/-- The entry of a page, which is zero when its table is not present. -/
def pageEntry (m : Memory) (cr3 p : Nat) : Pte :=
  (pteAddr m cr3 (p * 4096)).elim .zero fun a => entryOf (read32 m a)

/-- The physical address that an entry gives. -/
def translate (e : Pte) (v : Nat) : Option Nat := if e.present then some (e.frame * 4096 + v % 4096) else none

/-- The tables in memory are those of the model, outside of the window of the page tables. -/
structure Represents (m : Memory) (s : Paging) : Prop where
  directory : ∀ i < 1024, entryOf (read32 m (s.crtDir.pageDirEntriesPhy + 4 * i)) = s.getPde i
  pages : ∀ p < 2 ^ 20, p / 1024 ≠ 769 → pageEntry m s.crtDir.pageDirEntriesPhy p = s.getPte p

variable {m m' : Memory} {s : Paging} {a e i j n p q v x : Nat}

/-- The processor translates addresses by the entries of the model. -/
theorem Represents.walk (h : Represents m s) (hv : v < 2 ^ 32) (hwindow : v / 2 ^ 22 ≠ 769) :
    walk m s.crtDir.pageDirEntriesPhy v = translate (s.getPte (v / 4096)) v := by
  rw [← h.pages (v / 4096) (by omega) (by omega), PageWalk.walk, pageEntry, pteAddr_page, translate]
  cases pteAddr m s.crtDir.pageDirEntriesPhy v with
  | none => rfl
  | some a =>
    change (if read32 m a % 2 = 1 then _ else _) = if decide (read32 m a % 2 = 1) = true then _ else _
    simp only [decide_eq_true_eq]
    rfl

/-! ## Loops that write entries -/

theorem clearMemory_outside (h : x < a ∨ a + n ≤ x) : clearMemory n a m x = m x := by
  induction n generalizing a m with
  | zero => rfl
  | succ n ih =>
    rw [clearMemory, ih (by omega)]
    exact write8_of_ne (by omega)

theorem clearMemory_inside (h : a ≤ x) (h' : x < a + n) : clearMemory n a m x = 0 := by
  induction n generalizing a m with
  | zero => omega
  | succ n ih =>
    rw [clearMemory]
    by_cases hx : x = a
    · subst hx
      rw [clearMemory_outside (by omega)]
      exact if_pos rfl
    · exact ih (by omega) (by omega)

theorem writeEntries_outside (h : x < a ∨ a + 4 * n ≤ x) : writeEntries n a e m x = m x := by
  induction n generalizing a e m with
  | zero => rfl
  | succ n ih =>
    rw [writeEntries, ih (by omega)]
    exact write32_of_ne (by omega)

theorem sameOn_writeEntries {lo hi : Nat} (h : hi ≤ a ∨ a + 4 * n ≤ lo) : SameOn m (writeEntries n a e m) lo hi :=
  fun _ _ _ => writeEntries_outside (by omega)

/-- The entries `i` to `i + n - 1` of the table at `a` are written. -/
theorem read32_writeEntries (he : e + n * 4096 ≤ 2 ^ 32) :
    read32 (writeEntries n (a + 4 * i) e m) (a + 4 * j) =
    if i ≤ j ∧ j < i + n then e + (j - i) * 4096 else read32 m (a + 4 * j) := by
  induction n generalizing i e m with
  | zero =>
    rw [if_neg (by omega)]
    rfl
  | succ n ih =>
    have haddr : a + 4 * i + 4 = a + 4 * (i + 1) := by omega
    have hpage : pageSize = 4096 := rfl
    rw [writeEntries, haddr, hpage, ih (by omega)]
    by_cases hij : j = i
    · subst hij
      rw [if_neg (by omega), if_pos (by omega), read32_write32 (by omega)]
      omega
    · rw [read32_write32_of_ne (by omega)]
      by_cases hin : i ≤ j ∧ j < i + (n + 1)
      · rw [if_pos (by omega), if_pos hin]
        omega
      · rw [if_neg (by omega), if_neg hin]

theorem read32_zero (h : ∀ x, a ≤ x → x < a + 4 → m x = 0) : read32 m a = 0 := by
  rw [read32, h a (by omega) (by omega), h (a + 1) (by omega) (by omega), h (a + 2) (by omega) (by omega),
    h (a + 3) (by omega) (by omega)]
  rfl

/-! ## The page directory -/

/-- The entries of the page directory. -/
def pdeWord (i : Nat) : Nat :=
  if i = 0 ∨ i = 768 then 0x100007 else if 769 ≤ i then 0x101007 + (i - 769) * 4096 else 0

/-- The page directory of the loader is in memory. -/
def HasDir (m : Memory) : Prop := ∀ i < 1024, read32 m (0x101000 + 4 * i) = pdeWord i

theorem HasDir.congr (h : HasDir m) (hsame : SameOn m m' 0x101000 0x102000) : HasDir m' := by
  intro i hi
  rw [read32_congr (hsame.mono (by omega) (by omega))]
  exact h i hi

theorem setupPage_eq (m : Memory) : setupPage m = writeEntries 256 (0x100000 + 4 * 0) 7
    (writeEntries 254 (0x101000 + 4 * 770) 0x102007 (write32 (write32 (write32 (clearMemory 4096 0x101000 m)
      (0x101000 + 4 * 0) 0x100007) (0x101000 + 4 * 768) 0x100007) (0x101000 + 4 * 769) 0x101007)) :=
  rfl

theorem setupPage_hasDir (m : Memory) : HasDir (setupPage m) := by
  intro i hi
  rw [setupPage_eq, read32_congr (sameOn_writeEntries (by omega)), read32_writeEntries (by decide), pdeWord]
  by_cases hlast : 770 ≤ i
  · rw [if_pos (by omega), if_neg (by omega), if_pos (by omega)]
    omega
  · rw [if_neg (by omega)]
    by_cases hown : i = 769
    · subst hown
      rw [read32_write32 (by decide)]
      rfl
    · rw [read32_write32_of_ne (by omega)]
      by_cases hlow : i = 768
      · subst hlow
        rw [read32_write32 (by decide)]
        rfl
      · rw [read32_write32_of_ne (by omega)]
        by_cases hfirst : i = 0
        · subst hfirst
          rw [read32_write32 (by decide)]
          rfl
        · rw [read32_write32_of_ne (by omega), if_neg (by omega), if_neg (by omega)]
          exact read32_zero fun x hx hx' => clearMemory_inside (by omega) (by omega)

theorem setupPage_outside (h : x < 0x100000 ∨ 0x100400 ≤ x ∧ x < 0x101000 ∨ 0x102000 ≤ x) : setupPage m x = m x := by
  rw [setupPage_eq, writeEntries_outside (by omega), writeEntries_outside (by omega), write32_of_ne (by omega),
    write32_of_ne (by omega), write32_of_ne (by omega), clearMemory_outside (by omega)]

/-- Where the entry of a page is. -/
def entryAddr (p : Nat) : Option Nat :=
  if p / 1024 = 0 ∨ p / 1024 = 768 then some (0x100000 + 4 * (p % 1024))
  else if 769 ≤ p / 1024 then some (0x101000 + 4 * (p - 769 * 1024)) else none

theorem HasDir.pteAddr (h : HasDir m) (hp : p < 2 ^ 20) : pteAddr m 0x101000 (p * 4096) = entryAddr p := by
  have hindex : p * 4096 / 2 ^ 22 = p / 1024 := by omega
  have hpage : p * 4096 / 4096 = p := by omega
  rw [PageWalk.pteAddr, pdeOf, hindex, hpage, h _ (by omega), pdeWord, entryAddr]
  by_cases hlow : p / 1024 = 0 ∨ p / 1024 = 768
  · rw [if_pos hlow, if_pos hlow]
    rfl
  · rw [if_neg hlow, if_neg hlow]
    by_cases hown : 769 ≤ p / 1024
    · rw [if_pos hown, if_pos hown, if_pos (by omega)]
      refine congrArg some ?_
      omega
    · rw [if_neg hown, if_neg hown]
      rfl

/-- The entry of a page is written through the window of the page tables. -/
theorem HasDir.store (h : HasDir m) (hp : 769 * 1024 ≤ p) (hp' : p < 2 ^ 20) (w : Nat) :
    store32 m pageDirPhysicalAddr (pageTablesVirtualAddrStart + p * 4) w =
    some (write32 m (0x101000 + 4 * (p - 769 * 1024)) w) := by
  have hown : read32 m (0x101000 + 4 * 769) = 0x101007 := h 769 (by decide)
  have hwalk : walk m 0x101000 (0xC0400000 + p * 4) = PageWalk.pteAddr m 0x101000 (p * 4096) :=
    walk_own (i := 769) (by rw [hown]) (by rw [hown]) hp' (by omega)
  rw [h.pteAddr hp', entryAddr, if_neg (by omega), if_pos (by omega)] at hwalk
  exact congrArg (Option.map fun a => write32 m a w) hwalk

theorem HasDir.mapNextPage (h : HasDir m) (hq : 770 * 1024 ≤ q) (hn : q + n ≤ 2 ^ 20) :
    mapNextPage n q e m = some (writeEntries n (0x101000 + 4 * (q - 769 * 1024)) e m) := by
  induction n generalizing q e m with
  | zero => rfl
  | succ n ih =>
    have haddr : 0x101000 + 4 * (q - 769 * 1024) + 4 = 0x101000 + 4 * (q + 1 - 769 * 1024) := by omega
    rw [BootLoader.mapNextPage, h.store (by omega) (by omega), writeEntries, haddr]
    exact ih (h.congr (sameOn_write32 (by omega))) (by omega) (by omega)

/-- The tables behind the page directory are written by three loops. -/
def kernelTables (m : Memory) : Memory :=
  writeEntries 2 (0x101000 + 4 * (0xEFFFF - 769 * 1024)) 0x1FFF007
    (writeEntries 256 (0x101000 + 4 * (0xC0800 - 769 * 1024)) 0x200007
      (writeEntries 256 (0x101000 + 4 * (0xFFF00 - 769 * 1024)) 0x1EFF007 m))

theorem allocatePagesForKernel_eq (h : HasDir m) : allocatePagesForKernel m = some (kernelTables m) := by
  have hbinary := h.mapNextPage (q := 0xFFF00) (n := 256) (e := 0x1EFF007) (by decide) (by decide)
  have h₁ : HasDir (writeEntries 256 (0x101000 + 4 * (0xFFF00 - 769 * 1024)) 0x1EFF007 m) :=
    h.congr (sameOn_writeEntries (by decide))
  have himage := h₁.mapNextPage (q := 0xC0800) (n := 256) (e := 0x200007) (by decide) (by decide)
  have h₂ := h₁.congr (sameOn_writeEntries (n := 256) (a := 0x101000 + 4 * (0xC0800 - 769 * 1024)) (e := 0x200007)
    (by decide))
  have hstack := h₂.mapNextPage (q := 0xEFFFF) (n := 2) (e := 0x1FFF007) (by decide) (by decide)
  change ((BootLoader.mapNextPage 256 0xFFF00 0x1EFF007 m).bind fun m =>
    (BootLoader.mapNextPage 256 0xC0800 0x200007 m).bind fun m => BootLoader.mapNextPage 2 0xEFFFF 0x1FFF007 m) = _
  rw [hbinary, Option.bind_some, himage, Option.bind_some, hstack]
  rfl

theorem kernelTables_outside (h : x < 0x102000 ∨ 0x200000 ≤ x) : kernelTables m x = m x := by
  rw [kernelTables, writeEntries_outside (by omega), writeEntries_outside (by omega), writeEntries_outside (by omega)]

/-! ## The tables that the loader leaves -/

theorem entryOf_mapTo {w f : Nat} (h : w = 7 + f * 4096) : entryOf w = .mapTo f := by
  have hpresent : w % 2 = 1 := by omega
  have hrw : w / 2 % 2 = 1 := by omega
  have huser : w / 4 % 2 = 1 := by omega
  have hframe : w / 4096 = f := by omega
  rw [entryOf, decide_eq_true hpresent, decide_eq_true hrw, decide_eq_true huser, hframe, Pte.mapTo]

theorem entryOf_pdeWord (hi : i < 1024) : entryOf (pdeWord i) = Paging.loaderDir.pde i := by
  rw [pdeWord, Paging.loaderDir]
  dsimp only
  by_cases hlow : i = 0 ∨ i = 768
  · rw [if_pos hlow, if_pos hlow]
    exact entryOf_mapTo rfl
  · rw [if_neg hlow, if_neg hlow]
    by_cases hown : 769 ≤ i
    · rw [if_pos hown, if_pos ⟨hown, hi⟩]
      exact entryOf_mapTo (by omega)
    · rw [if_neg hown, if_neg (by omega)]
      rfl

/-- Behind what the loader writes, the tables are zero when the machine starts. The loader relies on it. -/
def TablesZero (m : Memory) : Prop :=
  ∀ x, 0x100400 ≤ x ∧ x < 0x101000 ∨ 0x102000 ≤ x ∧ x < 0x200000 → m x = 0

/-- The first table, for the low memory. -/
theorem read32_firstTable (hzero : TablesZero m) (hj : j < 1024) :
    read32 (kernelTables (setupPage m)) (0x100000 + 4 * j) = if j < 256 then 7 + j * 4096 else 0 := by
  have hsame : SameOn (setupPage m) (kernelTables (setupPage m)) 0x100000 0x101000 :=
    fun _ _ _ => kernelTables_outside (by omega)
  rw [read32_congr (hsame.mono (by omega) (by omega))]
  by_cases hlow : j < 256
  · rw [setupPage_eq, read32_writeEntries (by decide), if_pos (by omega), if_pos hlow, Nat.sub_zero]
  · rw [if_neg hlow]
    refine read32_zero fun x hx hx' => ?_
    rw [setupPage_outside (by omega)]
    exact hzero x (by omega)

/-- The tables of the kernel. -/
theorem entryOf_kernelTable (hzero : TablesZero m) (hp : 770 * 1024 ≤ p) (hp' : p < 2 ^ 20) :
    entryOf (read32 (kernelTables (setupPage m)) (0x101000 + 4 * (p - 769 * 1024))) = Paging.loaderPte p := by
  have hrest : read32 (setupPage m) (0x101000 + 4 * (p - 769 * 1024)) = 0 := by
    refine read32_zero fun x hx hx' => ?_
    rw [setupPage_outside (by omega)]
    exact hzero x (by omega)
  have hlow : ¬p < 256 := by omega
  have hlow' : ¬(768 * 1024 ≤ p ∧ p < 768 * 1024 + 256) := by omega
  rw [kernelTables, read32_writeEntries (by decide), read32_writeEntries (by decide), read32_writeEntries (by decide),
    hrest, Paging.loaderPte, if_neg hlow, if_neg hlow']
  by_cases hstack : 0xEFFFF ≤ p ∧ p < 0xF0001
  · rw [if_pos (by omega), if_neg (by omega), if_pos hstack]
    exact entryOf_mapTo (by omega)
  · rw [if_neg (by omega)]
    by_cases himage : 0xC0800 ≤ p ∧ p < 0xC0900
    · rw [if_pos (by omega), if_pos himage]
      exact entryOf_mapTo (by omega)
    · rw [if_neg (by omega), if_neg himage, if_neg hstack]
      by_cases hbinary : 0xFFF00 ≤ p ∧ p < 0x100000
      · rw [if_pos (by omega), if_pos hbinary]
        exact entryOf_mapTo (by omega)
      · rw [if_neg (by omega), if_neg hbinary]
        rfl

theorem pageEntry_loader (hdir : HasDir (kernelTables (setupPage m))) (hzero : TablesZero m) (hp : p < 2 ^ 20)
    (hwindow : p / 1024 ≠ 769) :
    pageEntry (kernelTables (setupPage m)) 0x101000 p = Paging.loaderPte p := by
  rw [pageEntry, hdir.pteAddr hp, entryAddr]
  by_cases hlow : p / 1024 = 0 ∨ p / 1024 = 768
  · rw [if_pos hlow, Option.elim_some, read32_firstTable hzero (by omega), Paging.loaderPte]
    by_cases hfirst : p % 1024 < 256
    · rw [if_pos hfirst]
      by_cases hbelow : p < 256
      · rw [if_pos hbelow]
        exact entryOf_mapTo (by omega)
      · rw [if_neg hbelow, if_pos (by omega)]
        exact entryOf_mapTo (by omega)
    · rw [if_neg hfirst, if_neg (by omega), if_neg (by omega), if_neg (by omega), if_neg (by omega), if_neg (by omega)]
      rfl
  · rw [if_neg hlow]
    by_cases hkernel : 769 ≤ p / 1024
    · rw [if_pos hkernel, Option.elim_some]
      exact entryOf_kernelTable hzero (by omega) hp
    · rw [if_neg hkernel, Paging.loaderPte, if_neg (by omega), if_neg (by omega), if_neg (by omega), if_neg (by omega),
        if_neg (by omega)]
      rfl

theorem getPte_loaderPaging (bytes : Nat → Nat → Byte) : (Paging.loaderPaging bytes).getPte p = Paging.loaderPte p := by
  rw [Paging.getPte]
  split_ifs with huser
  · rw [Paging.isUserPage, decide_eq_true_eq] at huser
    rw [Paging.loaderPte, if_neg (by omega), if_neg (by omega), if_neg (by omega), if_neg (by omega), if_neg (by omega)]
    rfl
  · rfl

theorem pageDirEntriesPhy_loaderPaging (bytes : Nat → Nat → Byte) :
    (Paging.loaderPaging bytes).crtDir.pageDirEntriesPhy = 0x101000 :=
  Nat.div_mul_cancel (by decide : Paging.pageSize ∣ Paging.kernelPageDirPhy)

/-- The directory and the tables are those that the loader leaves. -/
structure Mapped (m : Memory) : Prop where
  directory : HasDir m
  pages : ∀ p < 2 ^ 20, p / 1024 ≠ 769 → pageEntry m 0x101000 p = Paging.loaderPte p

theorem mapped_kernelTables (hzero : TablesZero m) : Mapped (kernelTables (setupPage m)) :=
  have hdir : HasDir (kernelTables (setupPage m)) :=
    (setupPage_hasDir m).congr fun _ _ _ => kernelTables_outside (by omega)
  ⟨hdir, fun _ hp hwindow => pageEntry_loader hdir hzero hp hwindow⟩

theorem Mapped.congr (h : Mapped m) (hsame : SameOn m m' 0x100000 0x200000) : Mapped m' := by
  have hdir : HasDir m' := h.directory.congr (hsame.mono (by decide) (by decide))
  refine ⟨hdir, fun p hp hwindow => ?_⟩
  rw [← h.pages p hp hwindow, pageEntry, pageEntry, hdir.pteAddr hp, h.directory.pteAddr hp]
  cases haddr : entryAddr p with
  | none => rfl
  | some a =>
    have hrange : 0x100000 ≤ a ∧ a + 4 ≤ 0x200000 := by
      rw [entryAddr] at haddr
      split_ifs at haddr <;>
      · have := Option.some.inj haddr
        omega
    rw [Option.elim_some, Option.elim_some, read32_congr (hsame.mono hrange.1 hrange.2)]

/-- The directory and the tables are those of the state in which the kernel's paging starts. -/
theorem Mapped.represents (h : Mapped m) (bytes : Nat → Nat → Byte) : Represents m (Paging.loaderPaging bytes) where
  directory i hi := by
    rw [pageDirEntriesPhy_loaderPaging, h.directory i hi, entryOf_pdeWord hi]
    rfl
  pages p hp hwindow := by
    rw [pageDirEntriesPhy_loaderPaging, h.pages p hp hwindow, getPte_loaderPaging]

theorem Mapped.walk (h : Mapped m) (hv : v < 2 ^ 32) (hwindow : v / 2 ^ 22 ≠ 769) :
    walk m 0x101000 v = translate (Paging.loaderPte (v / 4096)) v := by
  have hwalk := (h.represents fun _ _ => 0).walk hv hwindow
  rw [pageDirEntriesPhy_loaderPaging, getPte_loaderPaging] at hwalk
  exact hwalk

/-- The loader maps the pages of the kernel without a page fault, and what it leaves in memory is the state in which
the kernel's paging starts. Nothing is written outside of the tables. -/
theorem loader_sets_up_paging (hzero : TablesZero m) (bytes : Nat → Nat → Byte) :
    ∃ m', setUpPaging m = some m' ∧ Represents m' (Paging.loaderPaging bytes) ∧
    (∀ v < 2 ^ 32, v / 2 ^ 22 ≠ 769 →
      walk m' pageDirPhysicalAddr v = translate (Paging.loaderPte (v / 4096)) v) ∧
    ∀ x, x < 0x100000 ∨ 0x200000 ≤ x → m' x = m x := by
  have hmapped := mapped_kernelTables hzero
  refine ⟨_, allocatePagesForKernel_eq (setupPage_hasDir m), hmapped.represents bytes,
    fun v hv hwindow => hmapped.walk hv hwindow, fun x hx => ?_⟩
  rw [kernelTables_outside (by omega), setupPage_outside (by omega)]

theorem loader_sets_up_paging_cleared :
    ∃ m', setUpPaging (fun _ => 0) = some m' ∧ Represents m' (Paging.loaderPaging fun _ _ => 0) ∧
    (∀ v < 2 ^ 32, v / 2 ^ 22 ≠ 769 →
      walk m' pageDirPhysicalAddr v = translate (Paging.loaderPte (v / 4096)) v) ∧
    ∀ x, x < 0x100000 ∨ 0x200000 ≤ x → m' x = 0 :=
  loader_sets_up_paging (fun _ _ => rfl) fun _ _ => 0

end LuckOS.BootLoader
