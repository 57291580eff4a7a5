import LuckOS.PhysicalCloned
import LuckOS.PhysicalEntries
import LuckOS.ForkRefinement

/-!
# Operations on physical memory

Processes access their memory, run into page faults, fork, release their user space and are switched. How many frames
an operation takes, its state says before. While these lie below the tables of the kernel, the operation does in
memory what it does in the state of `Paging`.
-/

namespace LuckOS

open ByteMemory PageWalk BootLoader FrameContents Outcome
open Paging (Pte PageDir UserAddr HeapPages isUserPage isUserTable)

namespace PhysicalPaging

/-- User-mode accesses, page faults, and the operations of the kernel between them. -/
inductive UserOp where
  | read (addr : UserAddr)
  | write (addr : UserAddr) (value : Byte)
  | fault (addr : UserAddr)
  | fork (heap : LentHeap)
  | release
  | switchTo (d : Nat)
  | heapFaults (pages : HeapPages)

/-- Make an access possible: when it faults, the handler runs and the access is retried. -/
def access (s : PhysicalPaging) (addr : Nat) (permitted : Pte → Bool) : Except Stop PhysicalPaging :=
  if permitted (s.entry (addr / pageSize)) then .ok s
  else do
    let s ← s.pageFaultHandler addr
    if permitted (s.entry (addr / pageSize)) then .ok s else .error (.pageFault addr)

/-- A user-mode read faults on a page that is not present. -/
def userRead (s : PhysicalPaging) (addr : Nat) : Except Stop (Byte × PhysicalPaging) := do
  let s ← s.access addr (fun pte => pte.present)
  let b ← s.loadByte addr
  .ok (b, s)

/-- A user-mode write faults also on a page that is not writable. -/
def userWrite (s : PhysicalPaging) (addr : Nat) (value : Byte) : Except Stop PhysicalPaging := do
  let s ← s.access addr (fun pte => pte.present && pte.rw)
  s.storeByte addr value

/-- One uninterrupted operation, with the bytes it reads. A switch to a process that does not exist does nothing. -/
def userOp (s : PhysicalPaging) : UserOp → Except Stop (List Byte × PhysicalPaging)
  | .read addr => do
    let r ← s.userRead addr.1
    .ok ([r.1], r.2)
  | .write addr value => do
    let s ← s.userWrite addr.1 value
    .ok ([], s)
  | .fault addr => do
    let s ← s.pageFaultHandler addr.1
    .ok ([], s)
  | .fork heap => do
    let s ← s.cloneCrtPageDir heap.toCloneHeap
    .ok ([], s)
  | .release => do
    let s ← s.releaseUserSpacePages
    .ok ([], s)
  | .switchTo d => .ok ([], if d < s.dirsNum then { s with crt := d } else s)
  | .heapFaults pages => do
    let s ← s.touchPages pages.1
    .ok ([], s)

/-- The number of frames that an operation takes. -/
def framesNeeded (s : PhysicalPaging) : UserOp → Nat
  | .read addr => if (s.entry (addr.1 / pageSize)).present then 0 else s.faultFrames (addr.1 / pageSize)
  | .write addr _ =>
    if (s.entry (addr.1 / pageSize)).present && (s.entry (addr.1 / pageSize)).rw then 0
    else s.faultFrames (addr.1 / pageSize)
  | .fault addr => s.faultFrames (addr.1 / pageSize)
  | .fork heap => s.cloneFrames heap.toCloneHeap
  | .release => 0
  | .switchTo _ => 0
  | .heapFaults pages => s.heapFrames pages.1

/-- The frames that an operation takes lie below the tables of the kernel. The first free frame is always taken
first. -/
def Spares (s : PhysicalPaging) (op : UserOp) : Prop := s.framesNeeded op ≤ s.phyFramesMap.freeBelow 0x100

instance (s : PhysicalPaging) (op : UserOp) : Decidable (s.Spares op) := inferInstanceAs (Decidable (_ ≤ _))

/-! ## The same operations in the other systems -/

/-- The operation on a state of `Paging`. -/
def UserOp.onPaging (s : Paging) : UserOp → Except Paging.Panic (List Byte × Paging)
  | .read addr => s.userOp (.read addr)
  | .write addr value => s.userOp (.write addr value)
  | .fault addr => do
    let s ← s.pageFaultHandler addr.1
    .ok ([], s)
  | .fork heap => s.userOp (.fork heap.toCloneHeap)
  | .release => s.userOp .release
  | .switchTo d => s.userOp (.switchTo d)
  | .heapFaults pages => s.userOp (.heapFaults pages)

/-- The operation in the reference system, in which a page fault changes nothing. -/
def UserOp.onEager (m : EagerMemory) : UserOp → List Byte × EagerMemory
  | .read addr => m.userOp (.read addr)
  | .write addr value => m.userOp (.write addr value)
  | .fault _ => ([], m)
  | .fork heap => m.userOp (.fork heap.toCloneHeap)
  | .release => m.userOp .release
  | .switchTo d => m.userOp (.switchTo d)
  | .heapFaults pages => m.userOp (.heapFaults pages)

variable {M N : PhysicalPaging} {m m' : Memory} {s t : Paging} {made : Option PageDir} {known : Nat → Prop}
  {a : EagerMemory} {v d f i p : Nat}

/-! ## Accesses -/

/-- The entry of a user page, which is absent on both sides when its table is not present. -/
theorem Represents.entry_eq (h : Represents M s) (hp : isUserPage p) :
    M.entry p = s.getPte p ∨ (M.entry p).present = false ∧ (s.getPte p).present = false := by
  have hcrt : M.crt < s.dirsNum := by
    rw [h.simulates.crt]
    exact h.wf.crt_lt
  have hentry : M.entry p = _ := h.simulates.pteIn_user hcrt hp
  rw [h.simulates.crt] at hentry
  rw [hentry, Paging.getPte_user hp]
  by_cases htable : ((s.dirs s.crt).pde (p / 1024)).present = true
  · rw [if_pos htable]
    exact .inl rfl
  · rw [if_neg htable]
    exact .inr ⟨rfl, Bool.eq_false_iff.mpr fun hpresent => htable (h.wf.tables _ h.wf.crt_lt p hp hpresent)⟩

/-- An access that needs a present page is permitted on both sides or on none. -/
theorem Represents.permitted_eq (h : Represents M s) (hp : isUserPage p) {c : Pte → Bool}
    (hpermitted : ∀ e : Pte, c e = true → e.present = true) : c (M.entry p) = c (s.getPte p) := by
  rcases h.entry_eq hp with heq | ⟨habsent, habsent'⟩
  · rw [heq]
  · have hnot : ∀ e : Pte, e.present = false → c e = false := by
      intro e he
      refine Bool.eq_false_iff.mpr fun hpermit => ?_
      rw [hpermitted e hpermit] at he
      cases he
    rw [hnot _ habsent, hnot _ habsent']

theorem Represents.access (h : Represents M s) (hp : isUserPage (v / pageSize)) {c : Pte → Bool}
    (hpermitted : ∀ e : Pte, c e = true → e.present = true)
    (hrw : ∀ e : Pte, e.present = true → e.rw = true → c e = true)
    (hfree : (if c (M.entry (v / pageSize)) then 0 else M.faultFrames (v / pageSize)) ≤
      M.phyFramesMap.freeBelow 0x100) :
    Together (s.access v c) (M.access v c) fun t N =>
      Represents N t ∧ c (t.getPte (v / pageSize)) = true := by
  rw [Paging.access, PhysicalPaging.access, h.permitted_eq hp hpermitted]
  rw [h.permitted_eq hp hpermitted] at hfree
  have hsize : Paging.pageSize = pageSize := rfl
  rw [hsize]
  split_ifs at hfree ⊢ with hpermit
  · exact together_ok ⟨h, hpermit⟩
  · have hrun := h.pageFaultHandler hp hfree
    obtain ⟨t, ht, N, hN, hrepresents⟩ := hrun
    have hmapped := (Paging.pageFaultHandler_user h.wf hp).of_ok ht
    have hentry : (t.getPte (v / pageSize)).present = true ∧ (t.getPte (v / pageSize)).rw = true := hmapped.entry hp
    have hdone := hrw _ hentry.1 hentry.2
    rw [ht, ok_bind, hN, ok_bind, hrepresents.permitted_eq hp hpermitted, if_pos hdone, if_pos hdone]
    exact together_ok ⟨hrepresents, hdone⟩

/-- Where a mapped user page is read and written. -/
theorem Represents.translate (h : Represents M s) (hp : isUserPage (v / pageSize))
    (hpresent : (s.getPte (v / pageSize)).present = true) :
    M.translate v = .ok ((s.getPte (v / pageSize)).frame * 4096 + v % pageSize) := by
  have hpage := changeable_user hp
  have htable : (s.getPde (v / pageSize / 1024)).present = true := by
    rw [Paging.getPte_user hp] at hpresent
    exact h.wf.tables _ h.wf.crt_lt _ hp hpresent
  have hwalk := h.simulates.describes.walk_page (o := v % pageSize) hpage.lt hpage.window htable (Nat.mod_lt _ (by decide))
  have hsplit : v / pageSize * 4096 + v % pageSize = v := Nat.div_add_mod' v 4096
  rw [hsplit, if_pos hpresent] at hwalk
  rw [PhysicalPaging.translate, h.simulates.cr3, hwalk]

theorem Represents.loadByte (h : Represents M s) (hp : isUserPage (v / pageSize))
    (hpresent : (s.getPte (v / pageSize)).present = true) : M.loadByte v = .ok (s.load v) := by
  rw [PhysicalPaging.loadByte, h.translate hp hpresent]
  have hbytes := (h.simulates.describes.pages _ (isMapped_getPte h.wf hp hpresent)).2.2.2
  exact congrArg Except.ok (hbytes _ (Nat.mod_lt _ (by decide)))

/-- A byte of a mapped user page is stored. -/
theorem Represents.storeByte (h : Represents M s) (hp : isUserPage (v / pageSize))
    (hpresent : (s.getPte (v / pageSize)).present = true) (b : Byte) :
    Returns (M.storeByte v b) fun N => Represents N (s.storeByte v b) := by
  have hmapped := isMapped_getPte h.wf hp hpresent
  obtain ⟨hused, hlt, htable, hbytes⟩ := h.simulates.describes.pages _ hmapped
  have hoffset : v % pageSize < 4096 := Nat.mod_lt _ (by decide)
  have hstored := (h.simulates.weaken (k := fun g => s.IsMapped g ∧ g ≠ (s.getPte (v / pageSize)).frame)
    fun g hg => hg.1).learn (N := Function.update s.bytes (s.getPte (v / pageSize)).frame
      (Function.update (s.bytes (s.getPte (v / pageSize)).frame) (v % pageSize) b))
    (sameBut_write8 (v := b) hoffset) hused hlt htable (fun hknown => hknown.2 rfl)
    (hbytes.write fun j _ => ?_) fun g hg => Function.update_of_ne hg _ _
  · rw [PhysicalPaging.storeByte, h.translate hp hpresent]
    refine ⟨_, rfl, h.wf.storeByte v b, hstored.weaken fun g hg => ?_⟩
    by_cases hframe : g = (s.getPte (v / pageSize)).frame
    · exact .inl hframe
    · exact .inr ⟨hg, hframe⟩
  · rw [Function.update_self, Function.update_apply]

/-! ## One operation -/

theorem Represents.switch (h : Represents M s) (d : Nat) :
    Represents (if d < M.dirsNum then { M with crt := d } else M) (if d < s.dirsNum then { s with crt := d } else s) := by
  have hnum := h.simulates.dirsNum
  by_cases hd : d < s.dirsNum
  · rw [if_pos (hnum ▸ hd), if_pos hd]
    exact ⟨h.wf.switch hd, (h.simulates.switch hd).weaken fun g hg => hg⟩
  · rw [if_neg (hnum ▸ hd), if_neg hd]
    exact h

/-- An operation reads the same bytes in memory as in the state, and the memory keeps to the state. -/
theorem Represents.userOp (h : Represents M s) {op : UserOp} (hspares : M.Spares op) :
    Together (op.onPaging s) (M.userOp op) fun r r' => r'.1 = r.1 ∧ Represents r'.2 r.2 := by
  cases op with
  | read addr =>
    have haccess := h.access (c := fun e => e.present) addr.2 (fun _ he => he) (fun _ he _ => he) hspares
    obtain ⟨t, ht, N, hN, hrepresents, hpresent⟩ := haccess
    refine ⟨([t.load addr.1], t), ?_, ([t.load addr.1], N), ?_, rfl, hrepresents⟩
    · simp only [UserOp.onPaging, Paging.userOp, Paging.userRead, ht, ok_bind]
    · simp only [PhysicalPaging.userOp, userRead, hN, ok_bind, hrepresents.loadByte addr.2 hpresent]
  | write addr value =>
    have haccess := h.access (c := fun e => e.present && e.rw) addr.2 (fun _ he => (Bool.and_eq_true_iff.mp he).1)
      (fun _ he hrw => Bool.and_eq_true_iff.mpr ⟨he, hrw⟩) hspares
    obtain ⟨t, ht, N, hN, hrepresents, hpermitted⟩ := haccess
    obtain ⟨N', hN', hstored⟩ := hrepresents.storeByte addr.2 (Bool.and_eq_true_iff.mp hpermitted).1 value
    refine ⟨([], t.storeByte addr.1 value), ?_, ([], N'), ?_, rfl, hstored⟩
    · simp only [UserOp.onPaging, Paging.userOp, Paging.userWrite, ht, ok_bind]
    · simp only [PhysicalPaging.userOp, userWrite, hN, ok_bind, hN']
  | fault addr =>
    obtain ⟨t, ht, N, hN, hrepresents⟩ := h.pageFaultHandler addr.2 hspares
    refine ⟨([], t), ?_, ([], N), ?_, rfl, hrepresents⟩
    · simp only [UserOp.onPaging, ht, ok_bind]
    · simp only [PhysicalPaging.userOp, hN, ok_bind]
  | fork heap =>
    obtain ⟨t, ht, N, hN, hcloned⟩ := h.cloneCrtPageDir heap hspares
    refine ⟨([], t), ?_, ([], N), ?_, rfl, hcloned.represents⟩
    · simp only [UserOp.onPaging, Paging.userOp, Paging.spaceStep, ht, ok_bind]
    · simp only [PhysicalPaging.userOp, hN, ok_bind]
  | release =>
    obtain ⟨N, hN, hrepresents⟩ := h.releaseUserSpacePages
    generalize ht : s.releaseUserSpacePages = t at hrepresents
    refine ⟨([], t), ?_, ([], N), ?_, rfl, hrepresents⟩
    · simp only [UserOp.onPaging, Paging.userOp, Paging.spaceStep, ht, ok_bind]
    · simp only [PhysicalPaging.userOp, hN, ok_bind]
  | switchTo d => exact together_ok ⟨rfl, h.switch d⟩
  | heapFaults pages =>
    obtain ⟨t, ht, N, hN, hrepresents⟩ := h.touchPages pages.2 hspares
    refine ⟨([], t), ?_, ([], N), ?_, rfl, hrepresents⟩
    · simp only [UserOp.onPaging, Paging.userOp, Paging.spaceStep, ht, ok_bind]
    · simp only [PhysicalPaging.userOp, hN, ok_bind]

theorem access_releasesLast (hs : s.Wf) (addr : UserAddr) {c : Pte → Bool}
    (hrun : s.access addr.1 c = .ok t) : s.ReleasesLast t := by
  rw [Paging.access] at hrun
  split_ifs at hrun with hpermit
  · cases hrun
    exact Paging.releasesLast_of_kept rfl fun f hf => hf
  · obtain ⟨u, hfault, hrun⟩ := bind_eq_ok hrun
    split_ifs at hrun
    cases hrun
    exact (Paging.spaceStep_releasesLast hs (.fault addr)).of_ok hfault

/-- An operation gives frames back with their last mapping only. -/
theorem onPaging_releasesLast (hs : s.Wf) {op : UserOp} {r : List Byte × Paging} (hrun : op.onPaging s = .ok r) :
    s.ReleasesLast r.2 := by
  cases op with
  | read addr =>
    obtain ⟨r', hread, hrun⟩ := bind_eq_ok hrun
    obtain ⟨t, haccess, hread⟩ := bind_eq_ok hread
    cases hread
    cases hrun
    exact access_releasesLast hs addr haccess
  | write addr value =>
    obtain ⟨r', hwrite, hrun⟩ := bind_eq_ok hrun
    obtain ⟨t, haccess, hwrite⟩ := bind_eq_ok hwrite
    cases hwrite
    cases hrun
    have hlast := access_releasesLast hs addr haccess
    exact hlast
  | fault addr =>
    obtain ⟨t, hfault, hrun⟩ := bind_eq_ok hrun
    cases hrun
    exact (Paging.spaceStep_releasesLast hs (.fault addr)).of_ok hfault
  | fork heap =>
    obtain ⟨t, hfork, hrun⟩ := bind_eq_ok hrun
    cases hrun
    exact (Paging.spaceStep_releasesLast hs (.clone heap.toCloneHeap)).of_ok hfork
  | release =>
    obtain ⟨t, hrelease, hrun⟩ := bind_eq_ok hrun
    cases hrun
    exact (Paging.spaceStep_releasesLast hs .release).of_ok hrelease
  | switchTo d =>
    obtain ⟨t, hswitch, hrun⟩ := bind_eq_ok hrun
    cases hrun
    exact (Paging.spaceStep_releasesLast hs (.switchTo d)).of_ok hswitch
  | heapFaults pages =>
    obtain ⟨t, htouch, hrun⟩ := bind_eq_ok hrun
    cases hrun
    exact (Paging.spaceStep_releasesLast hs (.heapFaults pages)).of_ok htouch

/-- An operation reads in a state what it reads in the reference system. -/
theorem onPaging_refines (h : Paging.Refines s a) (op : UserOp) : Ensures Paging.Panic.OutOfFrames (op.onPaging s)
    fun r => r.1 = (op.onEager a).1 ∧ Paging.Refines r.2 (op.onEager a).2 := by
  cases op with
  | fault addr =>
    refine (Paging.pageFaultHandler_user h.wf addr.2).bind fun t ht => ⟨rfl, ht.wf, h.num.trans ht.dirsNum.symm,
      h.crt.trans ht.crt.symm, fun d p hd => ?_⟩
    rw [ht.view]
    exact h.view d p (by rw [← ht.dirsNum]; exact hd)
  | read addr => exact Paging.userOp_spec h (.read addr)
  | write addr value => exact Paging.userOp_spec h (.write addr value)
  | fork heap => exact Paging.userOp_spec h (.fork heap.toCloneHeap)
  | release => exact Paging.userOp_spec h .release
  | switchTo d => exact Paging.userOp_spec h (.switchTo d)
  | heapFaults pages => exact Paging.userOp_spec h (.heapFaults pages)

end PhysicalPaging

end LuckOS
