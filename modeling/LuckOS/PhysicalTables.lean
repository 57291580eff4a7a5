import LuckOS.PhysicalRelease
import LuckOS.FrameContents
import LuckOS.FreeFrames
import LuckOS.PagingUser

/-!
# Page tables in physical memory

The tables of the kernel lie in the frames 0x100 to 0x1FF, with the first directory in frame 0x101.
While no frame from 0x100 on is handed out, the other directories and the user page tables lie in
frames of their own below these, and what they hold is what the state of `Paging` says. A store to an
entry then changes this entry only.
-/

namespace LuckOS.PhysicalPaging

open ByteMemory PageWalk BootLoader FrameContents
open Paging (Pte PageDir isUserPage isUserTable)

/-- The entries of a directory for the tables of the kernel. -/
def IsKernelTable (i : Nat) : Prop := i < 1024 ∧ i ≠ 769 ∧ ¬ isUserTable i

/-- The frame of a table of the kernel. -/
def kernelTable (i : Nat) : Nat := if i = 0 ∨ i = 768 then 0x100 else i - 769 + 0x101

/-- The directories that exist, and the one that is being made. -/
def dirAt (s : Paging) (made : Option PageDir) (d : Nat) : Option PageDir :=
  if d < s.dirsNum then some (s.dirs d) else if d = s.dirsNum then made else none

/-- The frames of the directories, under the index 769, and of the user page tables. -/
def tableFrame (s : Paging) (made : Option PageDir) (x : Nat × Nat) : Option Nat :=
  (dirAt s made x.1).bind fun dir =>
    if x.2 = 769 then some dir.frame
    else if isUserTable x.2 ∧ (dir.pde x.2).present then some (dir.pde x.2).frame else none

/-- The frame holds a table. -/
def IsTable (s : Paging) (made : Option PageDir) (f : Nat) : Prop :=
  (∃ x, tableFrame s made x = some f) ∨ ∃ i, IsKernelTable i ∧ kernelTable i = f

/-- The entries that the table in a frame shall hold. -/
inductive TableContent (s : Paging) (made : Option PageDir) : Nat → (Nat → Pte) → Prop where
  | directory (d : Nat) (dir : PageDir) (h : dirAt s made d = some dir) : TableContent s made dir.frame dir.pde
  | user (d : Nat) (dir : PageDir) (i : Nat) (h : dirAt s made d = some dir) (hi : isUserTable i)
    (hpresent : (dir.pde i).present) : TableContent s made (dir.pde i).frame fun j => dir.pte (i * 1024 + j)
  | kernel (i : Nat) (hi : IsKernelTable i) : TableContent s made (kernelTable i) fun j => s.kernelPte (i * 1024 + j)

/-- The tables in memory are those of the state, in frames of their own, and the frames of `known` hold the
bytes of the state. -/
structure Describes (m : Memory) (s : Paging) (made : Option PageDir) (known : Nat → Prop) : Prop where
  crt_lt : s.crt < s.dirsNum
  tables : ∀ f e, TableContent s made f e → EntriesIn entryOf m f e
  own : ∀ d dir, dirAt s made d = some dir → dir.pde 769 = .mapTo dir.frame
  kernelPde : ∀ d dir, dirAt s made d = some dir → ∀ i, IsKernelTable i → dir.pde i = .mapTo (kernelTable i)
  frames : ∀ x f, tableFrame s made x = some f →
    s.phyFramesMap.testBit f = true ∧ f < 0x100 ∨ x = (0, 769) ∧ f = 0x101
  apart : ∀ x y f, tableFrame s made x = some f → tableFrame s made y = some f → x = y
  pages : ∀ f, known f → s.phyFramesMap.testBit f = true ∧ f < 0x100 ∧ ¬ IsTable s made f ∧ BytesIn m f (s.bytes f)

variable {m m' : Memory} {s t : Paging} {made : Option PageDir} {known : Nat → Prop} {dir : PageDir} {e : Pte}
  {d f g i j p v w : Nat} {x : Nat × Nat}

/-! ## Frames of tables -/

theorem kernelTable_range (hi : IsKernelTable i) : 0x100 ≤ kernelTable i ∧ kernelTable i < 0x200 ∧ kernelTable i ≠ 0x101 := by
  obtain ⟨hlt, hne, huser⟩ := hi
  rw [isUserTable, decide_eq_true_eq] at huser
  rw [kernelTable]
  split_ifs <;> omega

theorem kernelTable_eq (hi : IsKernelTable i) (hlow : i ≠ 0 ∧ i ≠ 768) (hj : IsKernelTable j)
    (h : kernelTable j = kernelTable i) : j = i := by
  obtain ⟨hlt, hne, huser⟩ := hi
  obtain ⟨hlt', hne', huser'⟩ := hj
  rw [isUserTable, decide_eq_true_eq] at huser huser'
  rw [kernelTable, kernelTable] at h
  split_ifs at h <;> omega

theorem dirAt_crt (h : s.crt < s.dirsNum) : dirAt s made s.crt = some s.crtDir := by
  rw [dirAt, if_pos h]
  rfl

theorem tableFrame_dir (h : dirAt s made d = some dir) : tableFrame s made (d, 769) = some dir.frame := by
  rw [tableFrame, h]
  rfl

theorem isUserTable_ne (hi : isUserTable i) : i ≠ 769 ∧ i < 1024 := by
  rw [isUserTable, decide_eq_true_eq] at hi
  omega

theorem tableFrame_user (h : dirAt s made d = some dir) (hi : isUserTable i) (hpresent : (dir.pde i).present) :
    tableFrame s made (d, i) = some (dir.pde i).frame := by
  rw [tableFrame, h, Option.bind_some, if_neg (isUserTable_ne hi).1, if_pos ⟨hi, hpresent⟩]

/-- A table is that of a directory, a user page table or one of the kernel. -/
theorem TableContent.isTable {c : Nat → Pte} (h : TableContent s made f c) : IsTable s made f := by
  cases h with
  | directory d dir h => exact .inl ⟨_, tableFrame_dir h⟩
  | user d dir i h hi hpresent => exact .inl ⟨_, tableFrame_user h hi hpresent⟩
  | kernel i hi => exact .inr ⟨i, hi, rfl⟩

namespace Describes

variable (h : Describes m s made known)

include h

theorem isTable_range (hf : IsTable s made f) :
    s.phyFramesMap.testBit f = true ∧ f < 0x100 ∨ 0x100 ≤ f ∧ f < 0x200 := by
  rcases hf with ⟨x, hx⟩ | ⟨i, hi, rfl⟩
  · rcases h.frames x f hx with hlow | ⟨-, rfl⟩
    · exact .inl hlow
    · exact .inr ⟨by omega, by omega⟩
  · have hrange := kernelTable_range hi
    exact .inr ⟨hrange.1, hrange.2.1⟩

/-- A free frame below the tables of the kernel holds no table and no page. -/
theorem fresh (hf : f < 0x100) (hfree : s.phyFramesMap.testBit f = false) : ¬ IsTable s made f ∧ ¬ known f := by
  refine ⟨fun htable => ?_, fun hknown => ?_⟩
  · rcases h.isTable_range htable with ⟨hused, -⟩ | hrange
    · rw [hfree] at hused
      cases hused
    · omega
  · have hused := (h.pages f hknown).1
    rw [hfree] at hused
    cases hused

/-- The directories and user page tables are not in the frames of the kernel's tables. -/
theorem tableFrame_ne_kernel (hx : tableFrame s made x = some f) (hi : IsKernelTable i) : f ≠ kernelTable i := by
  have hrange := kernelTable_range hi
  rcases h.frames x f hx with ⟨-, hlt⟩ | ⟨-, rfl⟩ <;> omega

theorem crtDir_dirAt : dirAt s made s.crt = some s.crtDir := dirAt_crt h.crt_lt

/-! ## Stores apart from the tables -/

/-- A frame is written that holds no table and no page that is known. -/
theorem overwrite (hsame : SameBut f m m') (htable : ¬ IsTable s made f) (hknown : ¬ known f) :
    Describes m' s made known where
  crt_lt := h.crt_lt
  tables g c hc := (h.tables g c hc).congr hsame fun heq => htable (heq ▸ hc.isTable)
  own := h.own
  kernelPde := h.kernelPde
  frames := h.frames
  apart := h.apart
  pages g hg := by
    obtain ⟨hused, hlt, hnot, hbytes⟩ := h.pages g hg
    exact ⟨hused, hlt, hnot, hbytes.congr hsame fun heq => hknown (heq ▸ hg)⟩

theorem weaken {known' : Nat → Prop} (hsub : ∀ f, known' f → known f) : Describes m s made known' :=
  ⟨h.crt_lt, h.tables, h.own, h.kernelPde, h.frames, h.apart, fun f hf => h.pages f (hsub f hf)⟩

/-- One more frame holds the bytes of the state. -/
theorem learn (hused : s.phyFramesMap.testBit f = true) (hlt : f < 0x100) (htable : ¬ IsTable s made f)
    (hbytes : BytesIn m f (s.bytes f)) : Describes m s made fun g => g = f ∨ known g := by
  refine ⟨h.crt_lt, h.tables, h.own, h.kernelPde, h.frames, h.apart, fun g hg => ?_⟩
  rcases hg with rfl | hg
  · exact ⟨hused, hlt, htable, hbytes⟩
  · exact h.pages g hg

/-- Another state with the same directories. -/
theorem of_dirAt {made' : Option PageDir} {known' : Nat → Prop} (hcrt : t.crt < t.dirsNum)
    (hdirAt : dirAt t made' = dirAt s made) (hkernel : t.kernelPte = s.kernelPte)
    (hused : ∀ f, IsTable s made f → s.phyFramesMap.testBit f = true → t.phyFramesMap.testBit f = true)
    (hpages : ∀ f, known' f → known f ∧ t.phyFramesMap.testBit f = true ∧ t.bytes f = s.bytes f) :
    Describes m t made' known' := by
  have hframe : tableFrame t made' = tableFrame s made := by
    funext x
    rw [tableFrame, tableFrame, hdirAt]
  have htable : ∀ f, IsTable t made' f ↔ IsTable s made f := fun f => by rw [IsTable, IsTable, hframe]
  refine ⟨hcrt, fun f c hc => h.tables f c ?_, ?_, ?_, fun x f hx => ?_, ?_, fun f hf => ?_⟩
  · cases hc with
    | directory d dir hd => exact .directory d dir (hdirAt ▸ hd)
    | user d dir i hd hi hpresent => exact .user d dir i (hdirAt ▸ hd) hi hpresent
    | kernel i hi =>
      rw [hkernel]
      exact .kernel i hi
  · rw [hdirAt]
    exact h.own
  · rw [hdirAt]
    exact h.kernelPde
  · rw [hframe] at hx
    exact (h.frames x f hx).imp_left fun hlow => ⟨hused f (.inl ⟨x, hx⟩) hlow.1, hlow.2⟩
  · rw [hframe]
    exact h.apart
  · obtain ⟨hknown, hused', hbytes⟩ := hpages f hf
    obtain ⟨-, hlt, hnot, hin⟩ := h.pages f hknown
    rw [htable, hbytes]
    exact ⟨hused', hlt, hnot, hin⟩

/-- Another state with the same tables. -/
theorem congr {known' : Nat → Prop} (hcrt : t.crt = s.crt) (hnum : t.dirsNum = s.dirsNum) (hdirs : t.dirs = s.dirs)
    (hkernel : t.kernelPte = s.kernelPte)
    (hused : ∀ f, IsTable s made f → s.phyFramesMap.testBit f = true → t.phyFramesMap.testBit f = true)
    (hpages : ∀ f, known' f → known f ∧ t.phyFramesMap.testBit f = true ∧ t.bytes f = s.bytes f) :
    Describes m t made known' := by
  refine h.of_dirAt (by rw [hcrt, hnum]; exact h.crt_lt) ?_ hkernel hused hpages
  funext d
  rw [dirAt, dirAt, hnum, hdirs]

end Describes

/-! ## Entries -/

theorem entryOf_mapTo_iff : entryOf w = .mapTo f → w % 2 = 1 ∧ w / 4096 = f := by
  intro h
  have hpresent := congrArg Pte.present h
  have hframe := congrArg Pte.frame h
  rw [entryOf, Pte.mapTo, decide_eq_true_eq] at hpresent
  exact ⟨hpresent, hframe⟩

theorem dirAt_setPte (hcrt : s.crt < s.dirsNum) : dirAt (s.setPte p e) made d = (dirAt s made d).map fun dir =>
    if d = s.crt ∧ isUserPage p then { dir with pte := Function.update dir.pte p e } else dir := by
  have hnum : (s.setPte p e).dirsNum = s.dirsNum := by
    rw [Paging.setPte]
    split_ifs <;> rfl
  rw [dirAt, dirAt, hnum]
  by_cases hd : d < s.dirsNum
  · rw [if_pos hd, if_pos hd, Option.map_some, Paging.setPte]
    by_cases hp : isUserPage p
    · rw [if_pos hp, Paging.setCrtDir_dirs]
      by_cases heq : d = s.crt
      · rw [if_pos heq, if_pos ⟨heq, hp⟩, heq]
        rfl
      · rw [if_neg heq, if_neg fun h => heq h.1]
    · rw [if_neg hp, if_neg fun h => hp h.2]
  · have hother : ¬(d = s.crt ∧ isUserPage p) := fun h => hd (h.1 ▸ hcrt)
    simp only [if_neg hd, if_neg hother, Option.map_id']

theorem tableFrame_setPte (hcrt : s.crt < s.dirsNum) : tableFrame (s.setPte p e) made = tableFrame s made := by
  funext x
  rw [tableFrame, tableFrame, dirAt_setPte hcrt]
  cases dirAt s made x.1 with
  | none => rfl
  | some dir =>
    rw [Option.map_some, Option.bind_some, Option.bind_some]
    split_ifs <;> rfl

namespace Describes

variable (h : Describes m s made known)

include h

/-- The table of a page of the current address space. -/
theorem entriesIn_table (hi : i < 1024) (hne : i ≠ 769) (hpresent : (s.getPde i).present) :
    EntriesIn entryOf m (s.getPde i).frame fun j => s.getPte (i * 1024 + j) := by
  by_cases huser : isUserTable i
  · refine (h.tables _ _ (.user s.crt s.crtDir i h.crtDir_dirAt huser hpresent)).of_eq fun j hj => ?_
    have hpage : isUserPage (i * 1024 + j) := by
      have hindex : (i * 1024 + j) / 1024 = i := by omega
      rw [← Paging.isUserTable_div, hindex]
      exact huser
    exact Paging.getPte_user hpage
  · have hkernel : IsKernelTable i := ⟨hi, hne, huser⟩
    have hpde : s.getPde i = .mapTo (kernelTable i) := h.kernelPde s.crt s.crtDir h.crtDir_dirAt i hkernel
    rw [hpde]
    refine (h.tables _ _ (.kernel i hkernel)).of_eq fun j hj => ?_
    have hpage : ¬ isUserPage (i * 1024 + j) := by
      have hindex : (i * 1024 + j) / 1024 = i := by omega
      rw [← Paging.isUserTable_div, hindex]
      exact huser
    rw [Paging.getPte, if_neg hpage]

theorem isTable_getPde (hi : i < 1024) (hne : i ≠ 769) (hpresent : (s.getPde i).present) :
    IsTable s made (s.getPde i).frame := by
  by_cases huser : isUserTable i
  · exact .inl ⟨_, tableFrame_user h.crtDir_dirAt huser hpresent⟩
  · have hkernel : IsKernelTable i := ⟨hi, hne, huser⟩
    have hpde : s.getPde i = .mapTo (kernelTable i) := h.kernelPde s.crt s.crtDir h.crtDir_dirAt i hkernel
    rw [hpde]
    exact .inr ⟨i, hkernel, rfl⟩

/-- A store to the entry of a page, outside of the window and of the table for the low memory. -/
theorem setPte (hp : p < 2 ^ 20) (hne : p / 1024 ≠ 769) (hlow : p / 1024 ≠ 0 ∧ p / 1024 ≠ 768)
    (hpresent : (s.getPde (p / 1024)).present) (hw : w < 2 ^ 32) :
    Describes (write32 m ((s.getPde (p / 1024)).frame * 4096 + 4 * (p % 1024)) w) (s.setPte p (entryOf w)) made known := by
  have hi : p / 1024 < 1024 := by omega
  have hsplit : p / 1024 * 1024 + p % 1024 = p := Nat.div_add_mod' p 1024
  have hsame : SameBut (s.getPde (p / 1024)).frame m
      (write32 m ((s.getPde (p / 1024)).frame * 4096 + 4 * (p % 1024)) w) := sameBut_write32 (Nat.mod_lt _ (by decide))
  have hframe : tableFrame (s.setPte p (entryOf w)) made = tableFrame s made := tableFrame_setPte h.crt_lt
  have hdir : ∀ d dir, dirAt (s.setPte p (entryOf w)) made d = some dir → ∃ old, dirAt s made d = some old ∧
      dir.frame = old.frame ∧ dir.pde = old.pde ∧
      dir.pte = if d = s.crt ∧ isUserPage p then Function.update old.pte p (entryOf w) else old.pte := by
    intro d dir hd
    rw [dirAt_setPte h.crt_lt] at hd
    obtain ⟨old, hold, rfl⟩ := Option.map_eq_some_iff.mp hd
    refine ⟨old, hold, ?_⟩
    split_ifs <;> exact ⟨rfl, rfl, rfl⟩
  have htable : IsTable s made (s.getPde (p / 1024)).frame := h.isTable_getPde hi hne hpresent
  have hmap : (s.setPte p (entryOf w)).phyFramesMap = s.phyFramesMap := by
    rw [Paging.setPte]
    split_ifs <;> rfl
  have hbytes : (s.setPte p (entryOf w)).bytes = s.bytes := by
    rw [Paging.setPte]
    split_ifs <;> rfl
  have hknownTable : ∀ f, IsTable (s.setPte p (entryOf w)) made f ↔ IsTable s made f :=
    fun f => by rw [IsTable, IsTable, hframe]
  refine ⟨?_, ?_, fun d dir hd => ?_, fun d dir hd => ?_, ?_, ?_, fun f hf => ?_⟩
  · rw [Paging.setPte]
    split_ifs <;> exact h.crt_lt
  · by_cases huser : isUserPage p
    · have huserTable : isUserTable (p / 1024) := by
        rw [Paging.isUserTable_div]
        exact huser
      have hslot := tableFrame_user (i := p / 1024) h.crtDir_dirAt huserTable hpresent
      intro f c hc
      cases hc with
      | directory d dir hd =>
        obtain ⟨old, hold, hold', hpde, -⟩ := hdir d dir hd
        rw [hold', hpde]
        refine (h.tables _ _ (.directory d old hold)).congr hsame fun heq => ?_
        have hkey := h.apart _ _ _ (tableFrame_dir hold) (heq ▸ hslot)
        exact hne (congrArg Prod.snd hkey).symm
      | user d dir i hd hi' hpresent' =>
        obtain ⟨old, hold, -, hpde, hpte⟩ := hdir d dir hd
        rw [hpde] at hpresent' ⊢
        have hin := h.tables _ _ (.user d old i hold hi' hpresent')
        by_cases hkey : d = s.crt ∧ i = p / 1024
        · obtain ⟨rfl, rfl⟩ := hkey
          obtain rfl : old = s.crtDir := Option.some.inj (hold.symm.trans h.crtDir_dirAt)
          refine hin.write hw fun j hj => ?_
          rw [hpte, if_pos ⟨rfl, huser⟩]
          by_cases hj' : j = p % 1024
          · rw [if_pos hj', hj', hsplit, Function.update_self]
          · rw [if_neg hj', Function.update_of_ne (by omega)]
        · refine (hin.congr hsame fun heq => ?_).of_eq fun j hj => ?_
          · have hsame' := h.apart _ _ _ (tableFrame_user hold hi' hpresent') (heq ▸ hslot)
            exact hkey ⟨congrArg Prod.fst hsame', congrArg Prod.snd hsame'⟩
          · rw [hpte]
            split_ifs with hd'
            · have hi'' : i ≠ p / 1024 := fun heq => hkey ⟨hd'.1, heq⟩
              rw [Function.update_of_ne (by omega)]
            · rfl
      | kernel i hi' =>
        have hkernel : (s.setPte p (entryOf w)).kernelPte = s.kernelPte := by
          rw [Paging.setPte, if_pos huser]
          rfl
        rw [hkernel]
        exact (h.tables _ _ (.kernel i hi')).congr hsame fun heq => h.tableFrame_ne_kernel hslot hi' heq.symm
    · have hkernel : IsKernelTable (p / 1024) := by
        refine ⟨hi, hne, ?_⟩
        rw [Paging.isUserTable_div]
        exact huser
      have hpde : s.getPde (p / 1024) = .mapTo (kernelTable (p / 1024)) :=
        h.kernelPde s.crt s.crtDir h.crtDir_dirAt _ hkernel
      rw [hpde] at hsame ⊢
      have hpte : (s.setPte p (entryOf w)).kernelPte = Function.update s.kernelPte p (entryOf w) := by
        rw [Paging.setPte, if_neg huser]
      have hold : ∀ d dir, dirAt (s.setPte p (entryOf w)) made d = some dir → dirAt s made d = some dir := by
        intro d dir hd
        rw [dirAt_setPte h.crt_lt] at hd
        obtain ⟨old, hold, rfl⟩ := Option.map_eq_some_iff.mp hd
        rw [if_neg fun hboth => huser hboth.2]
        exact hold
      intro f c hc
      cases hc with
      | directory d dir hd =>
        exact (h.tables _ _ (.directory d dir (hold d dir hd))).congr hsame
          (h.tableFrame_ne_kernel (tableFrame_dir (hold d dir hd)) hkernel)
      | user d dir i hd hi' hpresent' =>
        exact (h.tables _ _ (.user d dir i (hold d dir hd) hi' hpresent')).congr hsame
          (h.tableFrame_ne_kernel (tableFrame_user (hold d dir hd) hi' hpresent') hkernel)
      | kernel i hi' =>
        have hin := h.tables _ _ (.kernel i hi')
        rw [hpte]
        by_cases heq : i = p / 1024
        · subst heq
          refine hin.write hw fun j hj => ?_
          by_cases hj' : j = p % 1024
          · rw [if_pos hj', hj', hsplit, Function.update_self]
          · rw [if_neg hj', Function.update_of_ne (by omega)]
        · refine (hin.congr hsame fun hsame' => heq (kernelTable_eq hkernel hlow hi' hsame')).of_eq fun j hj => ?_
          rw [Function.update_of_ne (by omega)]
  · obtain ⟨old, hold, hold', hpde, -⟩ := hdir d dir hd
    rw [hold', hpde]
    exact h.own d old hold
  · obtain ⟨old, hold, -, hpde, -⟩ := hdir d dir hd
    rw [hpde]
    exact h.kernelPde d old hold
  · rw [hframe, hmap]
    exact h.frames
  · rw [hframe]
    exact h.apart
  · obtain ⟨hused, hlt, hnot, hin⟩ := h.pages f hf
    rw [hmap, hbytes, hknownTable]
    exact ⟨hused, hlt, hnot, hin.congr hsame fun heq => hnot (heq ▸ htable)⟩

end Describes

end LuckOS.PhysicalPaging
