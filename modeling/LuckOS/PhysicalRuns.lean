import LuckOS.PhysicalBoot
import LuckOS.PhysicalOverwrites
import LuckOS.PhysicalSpares
import LuckOS.ProcessFrames

/-!
# Runs of the memory system over physical memory

While the frames that the operations of a run take lie below the tables of the kernel, the counts of shared frames are
exact and each process reads what it would read with a memory of its own. The first operation that takes the directory
in use, or that of another process, ends this.
-/

namespace LuckOS

open ByteMemory PageWalk BootLoader FrameContents Outcome Runs
open Paging (Pte PageDir isUserPage isUserTable)

namespace PhysicalPaging

/-- All bytes that a sequence of operations reads. -/
def reads (s : PhysicalPaging) : List UserOp → Except Stop (List Byte)
  | [] => .ok []
  | op :: ops => do
    let r ← s.userOp op
    let bs ← r.2.reads ops
    .ok (r.1 ++ bs)

/-- No operation of a sequence takes a table of the kernel. -/
def SparesAll (s : PhysicalPaging) : List UserOp → Prop
  | [] => True
  | op :: ops => s.Spares op ∧ ∀ r, s.userOp op = .ok r → r.2.SparesAll ops

/-- The bytes that a sequence of operations reads in the reference system. -/
def eagerReads (m : EagerMemory) : List UserOp → List Byte
  | [] => []
  | op :: ops => (op.onEager m).1 ++ eagerReads (op.onEager m).2 ops

variable {M N : PhysicalPaging} {m m' : Memory} {s t : Paging} {a : EagerMemory} {op : UserOp} {ops : List UserOp}
  {v d f i p : Nat}

/-! ## Runs that spare the tables -/

/-- The memory that the boot loader and `main` leave keeps to a state in which no user page is mapped. -/
theorem represents_boot (hzero : TablesZero m) (hboot : boot m = .ok M) : ∃ s, Represents M s ∧ s.Booted := by
  obtain ⟨s, -, N, hN, hrepresents, hbooted⟩ := boot_together hzero
  obtain rfl := Except.ok.inj (hboot.symm.trans hN)
  exact ⟨s, hrepresents, hbooted⟩

theorem represents_run (hzero : TablesZero m) (hboot : boot m = .ok M) (hrun : Run (Guarded Spares OpStep) M ops N) :
    ∃ t, Represents N t := by
  obtain ⟨s, hs, -⟩ := represents_boot hzero hboot
  exact @Run.invariant _ _ _ _ _ _ (fun N => ∃ t, Represents N t)
    (fun hinv hstep => hinv.elim fun _ ht => ht.opStep hstep) hrun ⟨s, hs⟩

/-- From the boot loader on, and while no operation takes a table of the kernel, the counts are exact, and each further
operation returns and gives frames back with their last mapping only. -/
theorem counts_exact_while_tables_spared (hzero : TablesZero m) (hboot : boot m = .ok M)
    (hrun : Run (Guarded Spares OpStep) M ops N) :
    N.CountsExact ∧ ∀ op, N.Spares op → Returns (N.userOp op) fun r => N.ReleasesLast r.2 := by
  obtain ⟨t, ht⟩ := represents_run hzero hboot hrun
  refine ⟨ht.countsExact, fun op hspares => ?_⟩
  obtain ⟨r, hr, r', hr', -, hrepresents⟩ := ht.userOp hspares
  exact ⟨r', hr', ht.releasesLast hrepresents (onPaging_releasesLast ht.wf hr)⟩

/-- A run from a state that shows the memories of the reference system. -/
theorem Represents.reads (h : Represents M s) (ha : Paging.Refines s a) (hspares : M.SparesAll ops) :
    M.reads ops = .ok (eagerReads a ops) := by
  induction ops generalizing M s a with
  | nil => rfl
  | cons op ops ih =>
    obtain ⟨hop, hrest⟩ := hspares
    obtain ⟨r, hr, r', hr', hbytes, hrepresents⟩ := h.userOp hop
    obtain ⟨hread, hrefines⟩ := (onPaging_refines ha op).of_ok hr
    rw [PhysicalPaging.reads, hr', ok_bind, ih hrepresents hrefines (hrest r' hr'), ok_bind, hbytes, hread]
    rfl

/-- From the boot loader on, and while no operation takes a table of the kernel, the processes read what they read in
the reference system. -/
theorem cow_reads_while_tables_spared (hzero : TablesZero m) (hboot : boot m = .ok M) (hspares : M.SparesAll ops) :
    M.reads ops = .ok (eagerReads .init ops) := by
  obtain ⟨s, hs, hbooted⟩ := represents_boot hzero hboot
  exact hs.reads hbooted.refines hspares

theorem sparesAll_of_run (h : Run (Guarded Spares OpStep) M ops N) : M.SparesAll ops := by
  induction h with
  | nil M => trivial
  | cons head tail ih =>
    obtain ⟨hspares, bs, hrun⟩ := head
    refine ⟨hspares, fun r hr => ?_⟩
    obtain rfl := Except.ok.inj (hrun.symm.trans hr)
    exact ih

/-- An operation behind a run does not return. -/
theorem reads_append_error {e : Stop} (h : Run OpStep M ops N) (herror : N.userOp op = .error e) :
    M.reads (ops ++ [op]) = .error e := by
  induction h with
  | nil M =>
    rw [List.nil_append, PhysicalPaging.reads, herror]
    rfl
  | cons head tail ih =>
    obtain ⟨bs, hrun⟩ := head
    rw [List.cons_append, PhysicalPaging.reads, hrun, ok_bind, ih herror]
    rfl

/-! ## A run that uses up the frames below the tables -/

/-- A heap that lends two pages and needs no others. -/
def sampleLentHeap : LentHeap where
  toCloneHeap := Paging.sampleHeap
  copiedPageDir_aligned := rfl
  copiedPageTable_aligned := rfl
  distinct := by decide

/-- Pages of the kernel heap. -/
def samplePages : Paging.HeapPages := ⟨List.range' 0xC1000 249, fun p hp => by
  rw [List.mem_range'_1] at hp
  simp only [Paging.IsHeapPage, Paging.kheapStart, Paging.kheapMax, Paging.pageSize]
  omega⟩

/-- The heap grows by these pages, and the first process maps a page and forks. -/
def sampleOps : List UserOp := [.heapFaults samplePages, .read Paging.sampleAddr, .fork sampleLentHeap]

/-- All frames below the tables are in use. The two processes share the frame of the page, and have neither a table for
the pages from 8 MB on nor entries for three pages of the heap. -/
@[mk_iff]
structure IsFull (t : Paging) : Prop where
  used : ∀ f ∈ List.range 0x100, t.phyFramesMap.testBit f = true
  free : ∀ f ∈ [0x100, 0x101], t.phyFramesMap.testBit f = false
  crt : t.crt = 0
  dirsNum : t.dirsNum = 2
  firstDir : (t.dirs 0).frame = 0x101
  secondDir : (t.dirs 1).frame = 0xFE
  noTable : ∀ d ∈ [0, 1], ((t.dirs d).pde 2).present = false
  table : ∀ d ∈ [0, 1], ((t.dirs d).pde 1).present = true
  shared : ∀ d ∈ [0, 1], (t.dirs d).pte 0x400 = ⟨true, false, true, 0xFD⟩
  heap : ∀ p ∈ [0xC1200, 0xC0D00, 0xC0D01], (t.kernelPte p).present = false

instance (t : Paging) : Decidable (IsFull t) := decidable_of_iff' _ (isFull_iff t)

theorem le_freeBelow_of_canMapFrom {page frame n : Nat} (h : s.CanMapFrom page frame n) (hn : frame + n ≤ 0x100) :
    n ≤ s.phyFramesMap.freeBelow 0x100 := by
  have hsubset : (List.range' frame n).toFinset ⊆
      (Finset.range 0x100).filter fun f => s.phyFramesMap.testBit f = false := by
    intro f hf
    rw [List.mem_toFinset] at hf
    refine Finset.mem_filter.mpr ⟨?_, h.free f hf⟩
    rw [List.mem_range'_1] at hf
    exact Finset.mem_range.mpr (by omega)
  have hcard := Finset.card_le_card hsubset
  rw [List.toFinset_card_of_nodup List.nodup_range', List.length_range'] at hcard
  exact hcard

/-- The growth of the heap is one step of a run that is computed. -/
theorem execute_heapFaults (pages : Paging.HeapPages) {page frame n : Nat} (hs : s.KernelReady)
    (hpages : pages.1 = List.range' page n) (h : s.CanMapFrom page frame n) (hn : frame + n ≤ 0x100) :
    execute (permit sparesOn stepOn) s (.heapFaults pages :: ops) =
      execute (permit sparesOn stepOn) (s.mapFrom page frame n) ops := by
  have htouch := Paging.touchPages_mapFrom hs (fun p hp => pages.2 p (by rw [hpages]; exact hp)) h (by omega)
  have hspares : sparesOn s (.heapFaults pages) = true := by
    rw [sparesOn, decide_eq_true_eq, UserOp.framesOn, hpages]
    refine (Finset.card_filter_le _ _).trans ((List.toFinset_card_le _).trans ?_)
    rw [List.length_range']
    exact le_freeBelow_of_canMapFrom h hn
  have hstep : stepOn s (.heapFaults pages) = some (s.mapFrom page frame n) := by
    rw [stepOn, UserOp.onPaging, Paging.userOp, Paging.spaceStep, hpages, htouch]
    rfl
  rw [execute, permit, if_pos hspares, hstep]
  rfl

theorem exists_full_run : ∃ M N t, boot (fun _ => 0) = .ok M ∧ Run (Guarded Spares OpStep) M sampleOps N ∧
    Represents N t ∧ IsFull t := by
  have hcomputed : (Paging.boot (fun _ _ => 0) []).toOption.any (fun s => decide (s.CanMapFrom 0xC1000 3 249) &&
      (execute (permit sparesOn stepOn) (s.mapFrom 0xC1000 3 249)
        [.read Paging.sampleAddr, .fork sampleLentHeap]).any (IsFull ·)) = true := by
    rw [Paging.boot, Paging.initPaging_eq]
    decide +kernel
  obtain ⟨s, hs, M, hM, hrepresents, -⟩ := boot_together (m := fun _ => 0) fun _ _ => rfl
  rw [hs, Option.any_eq_true] at hcomputed
  obtain ⟨s', hs', hcomputed⟩ := hcomputed
  obtain rfl := Option.some.inj hs'
  rw [Bool.and_eq_true, decide_eq_true_eq] at hcomputed
  obtain ⟨hmaps, hcomputed⟩ := hcomputed
  rw [← execute_heapFaults samplePages hrepresents.wf.kernelReady rfl hmaps (by decide)] at hcomputed
  obtain ⟨t, hrun, hfull⟩ := (Option.any_eq_true _ _).mp hcomputed
  obtain ⟨N, hN, htN⟩ := hrepresents.run hrun
  exact ⟨M, N, t, hM, hN, htN, of_decide_eq_true hfull⟩

/-- The counts behind this run. -/
theorem counts_exact_after_fork : ∃ M N, boot (fun _ => 0) = .ok M ∧ Run (Guarded Spares OpStep) M sampleOps N ∧
    N.CountsExact ∧ ∀ op, N.Spares op → Returns (N.userOp op) fun r => N.ReleasesLast r.2 := by
  obtain ⟨M, N, -, hboot, hrun, -⟩ := exists_full_run
  exact ⟨M, N, hboot, hrun, counts_exact_while_tables_spared (fun _ _ => rfl) hboot hrun⟩

/-- Two processes write to a page that they share. -/
def sharedWrites : List UserOp := [.write Paging.sampleAddr 7, .fork sampleLentHeap, .write Paging.sampleAddr 5,
  .switchTo 1, .read Paging.sampleAddr, .switchTo 0, .read Paging.sampleAddr]

/-- Each process reads its own byte. -/
theorem reads_shared_writes : ∃ M, boot (fun _ => 0) = .ok M ∧ M.reads sharedWrites = .ok [7, 5] := by
  have hcomputed : ((Paging.boot (fun _ _ => 0) []).toOption.bind fun s =>
      execute (permit sparesOn stepOn) s sharedWrites).isSome = true := by
    rw [Paging.boot, Paging.initPaging_eq]
    decide +kernel
  obtain ⟨s, hs, M, hM, hrepresents, -⟩ := boot_together (m := fun _ => 0) fun _ _ => rfl
  rw [hs] at hcomputed
  obtain ⟨t, ht⟩ := Option.isSome_iff_exists.mp hcomputed
  obtain ⟨s', hs', hrun⟩ := Option.bind_eq_some_iff.mp ht
  obtain rfl := Option.some.inj hs'
  obtain ⟨N, hN, -⟩ := hrepresents.run hrun
  refine ⟨M, hM, (cow_reads_while_tables_spared (fun _ _ => rfl) hM (sparesAll_of_run hN)).trans ?_⟩
  rfl

/-- The next two frames are a table of the kernel and the first directory. -/
theorem allocate_full (hsize : t.phyFramesMap.sizes = (256, 256)) (hfull : IsFull t) : ∃ b b',
    t.phyFramesMap.allocateFirstFree = some (0x100, b) ∧ b.allocateFirstFree = some (0x101, b') := by
  have harray : t.phyFramesMap.arraySize = 256 := congrArg Prod.fst hsize
  have hused : ∀ f < 0x100, t.phyFramesMap.testBit f = true := fun f hf => hfull.used f (List.mem_range.mpr hf)
  have ha := Bitmap.allocateFirstFree_first (by omega) hused (hfull.free 0x100 (by decide))
  have htest := Bitmap.testBit_allocateFirstFree ha
  have hsizes : (t.phyFramesMap.setBit 0x100).sizes = (256, 256) := (Bitmap.sizes_setBit _ _).trans hsize
  have harray' : (t.phyFramesMap.setBit 0x100).arraySize = 256 := congrArg Prod.fst hsizes
  refine ⟨_, _, ha, Bitmap.allocateFirstFree_first (by omega) (fun g hg => ?_) ?_⟩
  · rw [htest, Bool.or_eq_true, decide_eq_true_eq]
    by_cases hlast : g = 0x100
    · exact .inl hlast
    · exact .inr (hused g (by omega))
  · rw [htest, hfull.free 0x101 (by decide)]
    rfl

/-- The address 8 MB. -/
def nextAddr : Paging.UserAddr := ⟨0x800000, by decide⟩

/-- The next page fault of the second process takes the directory of the first one as its page. The entry of the first
process for the shared page is gone, and its count is not. -/
theorem fault_overwrites_other_directory : ∃ M N, boot (fun _ => 0) = .ok M ∧
    Run OpStep M (sampleOps ++ [.switchTo 1, .fault nextAddr]) N ∧ ¬ N.CountsExact := by
  obtain ⟨M, N, t, hboot, hrun, ht, hfull⟩ := exists_full_run
  obtain ⟨b, b', ha, hb⟩ := allocate_full ht.simulates.size hfull
  have hnum := hfull.dirsNum
  have hframe' := hfull.secondDir
  have hnumN : N.dirsNum = 2 := ht.simulates.dirsNum.trans hnum
  have hswitched := ht.switch 1
  rw [if_pos (by omega), if_pos (by omega)] at hswitched
  have hsim := hswitched.simulates
  have hcrtDir : ({ t with crt := 1 } : Paging).crtDir.frame = 0xFE := hframe'
  obtain ⟨m', hfault, hkept, hdir, hnew, hzero⟩ := hsim.pageFaultHandler_overwrites (p := 0x800) (by decide)
    (hfull.noTable 1 (by decide))
    (by rw [hsim.phyFramesMap]; exact ha) (by decide) (by rw [hcrtDir]; decide) hb (by decide)
    (by rw [hcrtDir]; decide) (by decide)
  have hrun₁ : OpStep N (.switchTo 1) { N with crt := 1 } := by
    refine ⟨[], ?_⟩
    rw [userOp, if_pos (by omega)]
  have hrun₂ : OpStep { N with crt := 1 } (.fault nextAddr) { N with
      crt := 1
      phyFramesMap := b'
      memory := m'
      pageFaults := N.pageFaults + 1 } := by
    have haddr : nextAddr.1 = 0x800 * pageSize := rfl
    refine ⟨[], ?_⟩
    rw [userOp, haddr, hfault]
    rfl
  refine ⟨M, _, hboot, hrun.unguard.append (.cons hrun₁ (.cons hrun₂ (.nil _))), ?_⟩
  have hentries := fun d p => hsim.pteIn_overwritten (N := { N with
    crt := 1
    phyFramesMap := b'
    memory := m'
    pageFaults := N.pageFaults + 1 }) (d := d) (p := p) rfl hkept hdir hnew hzero (by decide)
  have hpage : isUserPage 0x400 := by decide
  have hfirst := hsim.pteIn_user (d := 0) (p := 0x400) (by change 0 < t.dirsNum; omega) hpage
  have hsecond := hsim.pteIn_user (d := 1) (p := 0x400) (by change 1 < t.dirsNum; omega) hpage
  rw [show ({ t with crt := 1 } : Paging).dirs 0 = t.dirs 0 from rfl, if_pos (hfull.table 0 (by decide)),
    hfull.shared 0 (by decide)] at hfirst
  rw [show ({ t with crt := 1 } : Paging).dirs 1 = t.dirs 1 from rfl, if_pos (hfull.table 1 (by decide)),
    hfull.shared 1 (by decide)] at hsecond
  have hkeeps := hsim.pteIn_kept (N := { N with
    crt := 1
    phyFramesMap := b'
    memory := m'
    pageFaults := N.pageFaults + 1 }) (d := 1) (p := 0x400) rfl (fun x hx hne => hkept x hne (by omega) (by omega)) hdir
    (fun _ => Function.update_of_ne (by decide) ..) (by change 1 < t.dirsNum; omega)
    (by change (t.dirs 1).frame < 0x100; omega) hpage
  refine not_countsExact (f := 0xFD) hswitched.countsExact rfl (Finset.ssubset_iff_subset_ne.mpr ⟨fun x hx => ?_, ?_⟩) ?_
  · -- Entries for the shared frame were there before the fault.
    obtain ⟨hd, hp, hpresent, hf⟩ := mem_userPtes.mp hx
    have hdir : x.1 < t.dirsNum := by
      rw [hnum, ← hnumN]
      exact hd
    rcases hentries x.1 x.2 hdir hp hpresent with hother | ⟨-, hold⟩
    · rw [hf] at hother
      cases hother
    · rw [hold] at hpresent hf
      exact mem_userPtes.mpr ⟨hd, hp, hpresent, hf⟩
  · -- The entry of the first process is gone.
    intro heq
    have hmem : (0, 0x400) ∈ ({ N with crt := 1 } : PhysicalPaging).userPtes 0xFD :=
      mem_userPtes.mpr ⟨by change 0 < N.dirsNum; omega, hpage, by rw [hfirst], by rw [hfirst]⟩
    rw [← heq] at hmem
    obtain ⟨hd, -, hpresent, hf⟩ := mem_userPtes.mp hmem
    rcases hentries 0 0x400 (by change 0 < t.dirsNum; omega) hpage hpresent with hother | ⟨hne, -⟩
    · rw [hf] at hother
      cases hother
    · exact hne hfull.firstDir
  · refine ⟨(1, 0x400), mem_userPtes.mpr ⟨by change 1 < N.dirsNum; omega, hpage, ?_, ?_⟩⟩
    · rw [hkeeps, hsecond]
    · rw [hkeeps, hsecond]

/-- The next read of the first process takes its own directory, and does not return. -/
theorem read_overwrites_own_directory : ∃ M, boot (fun _ => 0) = .ok M ∧
    M.reads (sampleOps ++ [.read nextAddr]) = .error (.pageFault 0x80000C) ∧
    eagerReads .init (sampleOps ++ [.read nextAddr]) = [0, 0] := by
  obtain ⟨M, N, t, hboot, hrun, ht, hfull⟩ := exists_full_run
  obtain ⟨b, b', ha, hb⟩ := allocate_full ht.simulates.size hfull
  have hcrt := hfull.crt
  have hnext := hfull.noTable 0 (by decide)
  have hcrtDir : t.crtDir.frame = 0x101 := by
    rw [Paging.crtDir, hcrt]
    exact hfull.firstDir
  have hnext' : (t.getPde (0x800 / 1024)).present = false := by
    rw [Paging.getPde, Paging.crtDir, hcrt]
    exact hnext
  have hlost := ht.simulates.pageFaultHandler_directory (p := 0x800) (by decide) hnext'
    (by rw [ht.simulates.phyFramesMap]; exact ha) (by decide) (by rw [hcrtDir]; decide) (by rw [hcrtDir]; exact hb)
    (by rw [hcrtDir]; decide)
  have hpage : isUserPage 0x800 := by decide
  have hcrtN : N.crt = 0 := ht.simulates.crt.trans hcrt
  have hentry : N.pteIn N.crt 0x800 = _ := ht.simulates.pteIn_user (by rw [hcrtN, ← hcrt]; exact ht.wf.crt_lt) hpage
  rw [hcrtN, if_neg (Bool.eq_false_iff.mp hnext)] at hentry
  have habsent : (N.entry 0x800).present = false := by
    have hzero : N.entry 0x800 = N.pteIn 0 0x800 := by rw [← hcrtN]; rfl
    rw [hzero, hentry]
    rfl
  have haddr : nextAddr.1 = 0x800 * pageSize := rfl
  refine ⟨M, hboot, reads_append_error hrun.unguard ?_, rfl⟩
  have hdiv : 0x800 * pageSize / pageSize = 0x800 := rfl
  rw [userOp, userRead, access, haddr, hdiv, habsent, if_neg Bool.false_ne_true, hlost]
  rfl

end PhysicalPaging

end LuckOS
