import LuckOS.ForkRefinement
import LuckOS.HardDisk

/-!
# Stores of the kernel to user buffers

`process_wait` stores an exit code, `naive_fs_stat_file` a file size and
`naive_fs_read_data` the bytes of a file to an address that the process passes. These
stores are executed in supervisor mode, where a page that is present and not writable
faults only if CR0.WP is set.
-/

namespace LuckOS

namespace Paging

/-- CR0 at reset. -/
def cr0Reset : BitVec 32 := 0x60000010

/-- CR0 after `boot/loader.S` opened protected mode and enabled paging. -/
def cr0 : BitVec 32 := cr0Reset ||| 0x00000001 ||| 0x80000000

/-- CR0.WP, bit 16. -/
def writeProtect : Bool := cr0.getLsbD 16

/-- The pages to which a supervisor-mode store does not fault. -/
def supervisorWritable (pte : Pte) : Bool := pte.present && (pte.rw || !writeProtect)

/-- A store of one byte by the kernel. -/
def kernelStore (s : Paging) (w : Nat × Byte) : Except Panic Paging := do
  let s ← s.access w.1 supervisorWritable
  .ok (s.storeByte w.1 w.2)

def kernelStores (s : Paging) (ws : List (Nat × Byte)) : Except Panic Paging := ws.foldlM kernelStore s

end Paging

/-- The stores of a `uint32`. -/
def storesOfWord (addr : Nat) (value : Nat) : List (Nat × Byte) :=
  (List.range 4).map fun j => (addr + j, UInt8.ofNat (value / 256 ^ j))

/-- The store of `*status` in `process_wait`. -/
def processWaitStores (status : Nat) (exitCode : Nat) : List (Nat × Byte) :=
  if status ≠ 0 then storesOfWord status exitCode else []

namespace HardDisk

/-- One turn of the loop of `read_hard_disk`: the buffer pointer and the stores so far. `disk` holds the bytes that `read_disk`
delivers, and `behind` those that the turn for a sector finds behind the sector buffer. -/
def storeTurn (disk : Nat → Byte) (behind : Nat → Nat → Byte) (st : Nat × List (Nat × Byte)) (t : Turn) :
    Nat × List (Nat × Byte) :=
  let sectorBuffer := fun j => (sectorSource t.sector j).value disk (behind t.sector)
  (uint32Add st.1 t.copySize, st.2 ++ (List.range (memcpyNum t.copySize)).map fun k =>
    (uint32Add st.1 k, sectorBuffer (uint32Add t.offset k)))

/-- The stores of `read_hard_disk`. -/
def stores (disk : Nat → Byte) (behind : Nat → Nat → Byte) (buffer start length : Nat) : List (Nat × Byte) :=
  ((turns start length).foldl (storeTurn disk behind) (buffer, [])).2

end HardDisk

/-- `naive_file_meta_t`. -/
structure FileMeta where
  filename : List Char
  size : Nat
  offset : Nat

/-- The file system: its table of files and the disk, with what a read finds behind the sector buffer. -/
structure NaiveFs where
  fileMetas : List FileMeta
  disk : Nat → Byte
  behind : Nat → Nat → Byte

namespace NaiveFs

/-- `naive_fs.partition.offset`. -/
def partitionOffset : Nat := 2057 * HardDisk.sectorSize

def lookup (fs : NaiveFs) (filename : List Char) : Option FileMeta :=
  fs.fileMetas.find? (fun file => file.filename = filename)

/-- The stores of `naive_fs_stat_file`; `size` is the first field of `file_stat_t`. -/
def naiveFsStatFile (fs : NaiveFs) (filename : List Char) (stat : Nat) : List (Nat × Byte) :=
  match fs.lookup filename with
  | none => []
  | some file => storesOfWord stat file.size

/-- The stores of `naive_fs_read_data`. -/
def naiveFsReadData (fs : NaiveFs) (filename : List Char) (buffer start length : Nat) : List (Nat × Byte) :=
  match fs.lookup filename with
  | none => []
  | some file =>
    let length := if file.size < length then file.size else length
    HardDisk.stores fs.disk fs.behind buffer
      (HardDisk.uint32Add (HardDisk.uint32Add partitionOffset file.offset) start) length

end NaiveFs

/-- The system calls that store to a buffer of the caller. -/
inductive BufferCall where
  | wait (status exitCode : Nat)
  | stat (fs : NaiveFs) (filename : List Char) (addr : Nat)
  | read (fs : NaiveFs) (filename : List Char) (buffer start length : Nat)

def BufferCall.stores : BufferCall → List (Nat × Byte)
  | .wait status exitCode => processWaitStores status exitCode
  | .stat fs filename addr => fs.naiveFsStatFile filename addr
  | .read fs filename buffer start length => fs.naiveFsReadData filename buffer start length

/-- The calls whose buffer lies in the user space. -/
abbrev UserCall := {c : BufferCall // ∀ w ∈ c.stores, Paging.isUserPage (w.1 / Paging.pageSize)}

/-- The byte that stores leave at an address, if they go there. -/
def written : List (Nat × Byte) → Nat → Option Byte
  | [], _ => none
  | w :: ws, addr => (written ws addr).or (if w.1 = addr then some w.2 else none)

namespace Paging

open CopyOnWrite Outcome

variable {s t : Paging} {d p : Nat}

/-- The byte that a user-mode read by process `d` returns. -/
def readBy (s : Paging) (d : Nat) (addr : Nat) : Byte := s.pageView (d, addr / pageSize) (addr % pageSize)

/-- Process `d` and the current one map the page `p` to the same frame. -/
def SharesPage (s : Paging) (d p : Nat) : Prop :=
  ∃ r r', s.refs (s.crt, p) = some r ∧ s.refs (d, p) = some r' ∧ r.frame = r'.frame

/-- CR0.WP is never set. -/
theorem writeProtect_eq : writeProtect = false := by decide

theorem supervisorWritable_eq (pte : Pte) : supervisorWritable pte = pte.present := by
  simp [supervisorWritable, writeProtect_eq]

theorem Wf.pageView_storeByte_other (hs : s.Wf) {addr : Nat} (hp : isUserPage (addr / pageSize))
    (hpresent : (s.getPte (addr / pageSize)).present) (value : Byte) (d q : Nat) :
    (s.SharesPage d q ∧ q = addr / pageSize → (s.storeByte addr value).pageView (d, q) =
      Function.update (s.pageView (d, q)) (addr % pageSize) value) ∧
    (¬ (s.SharesPage d q ∧ q = addr / pageSize) → (s.storeByte addr value).pageView (d, q) = s.pageView (d, q)) := by
  have hentry : ((s.dirs s.crt).pte (addr / pageSize)).present := by
    rw [getPte_user hp] at hpresent
    exact hpresent
  have href := hs.ref_eq hs.crt_lt hp hentry
  have heq : s.getPte (addr / pageSize) = (s.dirs s.crt).pte (addr / pageSize) := getPte_user hp
  have hput : (s.storeByte addr value).store = s.store.put ((s.dirs s.crt).pte (addr / pageSize)).frame
      (Function.update (s.bytes ((s.dirs s.crt).pte (addr / pageSize)).frame) (addr % pageSize) value) := by
    rw [Paging.storeByte, heq]
    rfl
  refine ⟨?_, fun hnot => ?_⟩
  · rintro ⟨⟨r, r', hr, hr', hframe⟩, rfl⟩
    rw [href, Option.some.injEq] at hr
    have hsame : r'.frame = ((s.dirs s.crt).pte (addr / pageSize)).frame := by
      rw [← hframe, ← hr]
    rw [pageView, hput, ← hsame, Store.view_put_of_ref (s := s.store) hr', pageView,
      Store.view_of_ref (s := s.store) hr']
    rfl
  · rw [pageView, hput, Store.view_put_of_notMem]
    · rfl
    · rintro ⟨w, hw⟩
      have hq : q = addr / pageSize := hs.aligned (d, q) (s.crt, addr / pageSize) _ _ hw href rfl
      exact hnot ⟨by subst hq; exact ⟨_, _, href, hw, rfl⟩, hq⟩

/-- The effect of a kernel store on the other processes. -/
structure KernelStored (s : Paging) (w : Nat × Byte) (t : Paging) : Prop where
  wf : t.Wf
  crt : t.crt = s.crt
  dirsNum : t.dirsNum = s.dirsNum
  shares : ∀ d q, d ≠ s.crt → (t.SharesPage d q ↔ s.SharesPage d q)
  shared : ∀ d q, d ≠ s.crt → s.SharesPage d q → q = w.1 / pageSize →
    t.pageView (d, q) = Function.update (s.pageView (d, q)) (w.1 % pageSize) w.2
  private_ : ∀ d q, d ≠ s.crt → ¬ (s.SharesPage d q ∧ q = w.1 / pageSize) → t.pageView (d, q) = s.pageView (d, q)

theorem KernelStored.of_present (hs : s.Wf) {w : Nat × Byte} (hp : isUserPage (w.1 / pageSize))
    (hpresent : (s.getPte (w.1 / pageSize)).present) : KernelStored s w (s.storeByte w.1 w.2) where
  wf := hs.storeByte _ _
  crt := rfl
  dirsNum := rfl
  shares _ _ _ := Iff.rfl
  shared _ _ _ hshares hq := (hs.pageView_storeByte_other hp hpresent w.2 _ _).1 ⟨hshares, hq⟩
  private_ _ _ _ hnot := (hs.pageView_storeByte_other hp hpresent w.2 _ _).2 hnot

/-- A page that the kernel had to map is shared by nobody, before and after. -/
theorem Mapped.sharesPage_iff (h : Mapped s p t) (hnone : s.refs (s.crt, p) = none) (hd : d ≠ s.crt) (q : Nat) :
    t.SharesPage d q ↔ s.SharesPage d q := by
  obtain ⟨g, hg, -⟩ := h.ref
  have hother : t.refs (d, q) = s.refs (d, q) := by
    rw [hg, Function.update_of_ne (by simp [hd])]
  rw [SharesPage, SharesPage, hother, h.crt]
  by_cases hq : q = p
  · subst hq
    have hcrt : t.refs (s.crt, q) = some ⟨g, true⟩ := by
      rw [hg, Function.update_self]
    constructor
    · rintro ⟨r, r', hr, hr', hframe⟩
      rw [hcrt, Option.some.injEq] at hr
      have hmem : (d, q) ∈ t.store.sharers g := by
        refine ⟨r'.writable, hother.trans (hr'.trans ?_)⟩
        rw [← hr] at hframe
        simp only at hframe
        rw [hframe]
      rw [h.wf.sound.writable (s.crt, q) g hcrt] at hmem
      simp [hd] at hmem
    · rintro ⟨r, r', hr, -⟩
      simp [hnone] at hr
  · rw [hg, Function.update_of_ne (by simp [hq])]

theorem kernelStore_spec (hs : s.Wf) {w : Nat × Byte} (hp : isUserPage (w.1 / pageSize)) :
    Ensures Panic.OutOfFrames (s.kernelStore w) (KernelStored s w) := by
  rw [kernelStore, access]
  simp only [supervisorWritable_eq]
  by_cases hpresent : (s.getPte (w.1 / pageSize)).present
  · rw [if_pos hpresent]
    exact KernelStored.of_present hs hp hpresent
  · rw [if_neg hpresent]
    have hnone : s.refs (s.crt, w.1 / pageSize) = none := by
      rw [getPte_user hp, crtDir] at hpresent
      exact refs_of_absent (by simpa using hpresent)
    refine Ensures.bind (m := fun t => Mapped s (w.1 / pageSize) t ∧ (t.getPte (w.1 / pageSize)).present) ?_
      fun t ht => ?_
    · refine (pageFaultHandler_user hs hp).bind fun t ht => ?_
      rw [if_pos (ht.entry hp).1]
      exact ⟨ht, (ht.entry hp).1⟩
    · obtain ⟨hmapped, hpresent'⟩ := ht
      have hstored := KernelStored.of_present hmapped.wf hp hpresent'
      have hshares := fun d q (hd : d ≠ s.crt) => hmapped.sharesPage_iff hnone hd q
      refine ⟨hstored.wf, hmapped.crt, hmapped.dirsNum, fun d q hd => hshares d q hd, ?_, ?_⟩
      · intro d q hd hsh hq
        rw [hstored.shared d q (by rw [hmapped.crt]; exact hd) ((hshares d q hd).mpr hsh) hq, hmapped.view]
      · intro d q hd hnot
        rw [hstored.private_ d q (by rw [hmapped.crt]; exact hd) (by rw [hshares d q hd]; exact hnot), hmapped.view]

/-- The effect of several stores on the other processes. -/
structure KernelStoredAll (s : Paging) (ws : List (Nat × Byte)) (t : Paging) : Prop where
  wf : t.Wf
  crt : t.crt = s.crt
  dirsNum : t.dirsNum = s.dirsNum
  shares : ∀ d q, d ≠ s.crt → (t.SharesPage d q ↔ s.SharesPage d q)
  shared : ∀ d addr b, d ≠ s.crt → s.SharesPage d (addr / pageSize) → written ws addr = some b → t.readBy d addr = b
  private_ : ∀ d addr, d ≠ s.crt → (s.SharesPage d (addr / pageSize) → written ws addr = none) →
    t.readBy d addr = s.readBy d addr

theorem KernelStored.readBy_of_ne {w : Nat × Byte} (h : KernelStored s w t) (hd : d ≠ s.crt) {addr : Nat}
    (hne : s.SharesPage d (addr / pageSize) → addr ≠ w.1) : t.readBy d addr = s.readBy d addr := by
  rw [readBy, readBy]
  by_cases hq : s.SharesPage d (addr / pageSize) ∧ addr / pageSize = w.1 / pageSize
  · have hoff : addr % pageSize ≠ w.1 % pageSize := by
      have haddr := hne hq.1
      have hpage := hq.2
      simp only [pageSize] at hpage ⊢
      omega
    rw [h.shared d _ hd hq.1 hq.2, Function.update_of_ne hoff]
  · rw [h.private_ d _ hd hq]

theorem kernelStores_spec (hs : s.Wf) {ws : List (Nat × Byte)} (hp : ∀ w ∈ ws, isUserPage (w.1 / pageSize)) :
    Ensures Panic.OutOfFrames (s.kernelStores ws) (KernelStoredAll s ws) := by
  rw [kernelStores]
  induction ws generalizing s with
  | nil => exact ⟨hs, rfl, rfl, fun _ _ _ => Iff.rfl, fun _ _ _ _ _ h => (nomatch h), fun _ _ _ _ => rfl⟩
  | cons w ws ih =>
    rw [List.foldlM_cons]
    refine (kernelStore_spec hs (hp w (List.mem_cons_self ..))).bind fun t ht => ?_
    refine (ih ht.wf fun v hv => hp v (List.mem_cons_of_mem _ hv)).mono fun u hu => ?_
    refine ⟨hu.wf, hu.crt.trans ht.crt, hu.dirsNum.trans ht.dirsNum, ?_, ?_, ?_⟩
    · intro d q hd
      rw [hu.shares d q (by rw [ht.crt]; exact hd), ht.shares d q hd]
    · intro d addr b hd hshares hwritten
      have hd' : d ≠ t.crt := by rwa [ht.crt]
      rw [written, Option.or_eq_some_iff] at hwritten
      rcases hwritten with hwritten | ⟨hnone, hwritten⟩
      · exact hu.shared d addr b hd' ((ht.shares d _ hd).mpr hshares) hwritten
      · split_ifs at hwritten with haddr
        subst haddr
        rw [hu.private_ d w.1 hd' fun _ => hnone, readBy, ht.shared d _ hd hshares rfl, Function.update_self]
        exact Option.some.inj hwritten
    · intro d addr hd hnot
      have hd' : d ≠ t.crt := by rwa [ht.crt]
      rw [hu.private_ d addr hd' ?_, ht.readBy_of_ne hd ?_]
      · intro hshares heq
        have hnone := hnot hshares
        rw [written, Option.or_eq_none_iff, if_pos heq.symm] at hnone
        cases hnone.2
      · intro hshares
        have hnone := hnot ((ht.shares d _ hd).mp hshares)
        rw [written, Option.or_eq_none_iff] at hnone
        exact hnone.1

end Paging

end LuckOS
