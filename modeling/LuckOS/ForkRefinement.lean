import LuckOS.UserSpaces

/-!
# Fork by copy-on-write refines fork by eager copy

User-mode reads and writes go through the page tables; an access that is not permitted
faults and is retried after the handler. In the reference system every process has a
memory of its own, fork copies it at once, and pages that were never written read as
zero. Both systems answer every read with the same byte.
-/

namespace LuckOS

namespace Paging

/-- User-mode accesses and the operations of the kernel between them. -/
inductive UserOp where
  | read (addr : UserAddr)
  | write (addr : UserAddr) (value : Byte)
  | fork (heap : CloneHeap)
  | release
  | switchTo (d : Nat)
  | heapFaults (pages : HeapPages)

/-- The byte of a mapped page. -/
def load (s : Paging) (addr : Nat) : Byte := s.bytes (s.getPte (addr / pageSize)).frame (addr % pageSize)

/-- Store a byte to a mapped page. -/
def storeByte (s : Paging) (addr : Nat) (value : Byte) : Paging :=
  let frame := (s.getPte (addr / pageSize)).frame
  { s with bytes := Function.update s.bytes frame (Function.update (s.bytes frame) (addr % pageSize) value) }

/-- Make an access possible: when it faults, the handler runs and the access is retried. -/
def access (s : Paging) (addr : Nat) (permitted : Pte → Bool) : Except Panic Paging :=
  if permitted (s.getPte (addr / pageSize)) then .ok s
  else do
    let s ← s.pageFaultHandler addr
    if permitted (s.getPte (addr / pageSize)) then .ok s else .error .faultRepeated

/-- A user-mode read faults on a page that is not present. -/
def userRead (s : Paging) (addr : Nat) : Except Panic (Byte × Paging) := do
  let s ← s.access addr (fun pte => pte.present)
  .ok (s.load addr, s)

/-- A user-mode write faults also on a page that is not writable. -/
def userWrite (s : Paging) (addr : Nat) (value : Byte) : Except Panic Paging := do
  let s ← s.access addr (fun pte => pte.present && pte.rw)
  .ok (s.storeByte addr value)

/-- One operation, with the bytes it reads. -/
def userOp (s : Paging) : UserOp → Except Panic (List Byte × Paging)
  | .read addr => do
    let r ← s.userRead addr.1
    .ok ([r.1], r.2)
  | .write addr value => do
    let s ← s.userWrite addr.1 value
    .ok ([], s)
  | .fork heap => do
    let s ← s.spaceStep (.clone heap)
    .ok ([], s)
  | .release => do
    let s ← s.spaceStep .release
    .ok ([], s)
  | .switchTo d => do
    let s ← s.spaceStep (.switchTo d)
    .ok ([], s)
  | .heapFaults pages => do
    let s ← s.spaceStep (.heapFaults pages)
    .ok ([], s)

end Paging

/-- The reference system: a memory for each process. -/
structure EagerMemory where
  mem : Nat → Nat → Nat → Byte
  num : Nat
  crt : Nat

namespace EagerMemory

open Paging

/-- One process, whose pages are zero. -/
def init : EagerMemory := ⟨fun _ _ _ => 0, 1, 0⟩

def userOp (m : EagerMemory) : UserOp → List Byte × EagerMemory
  | .read addr => ([m.mem m.crt (addr.1 / pageSize) (addr.1 % pageSize)], m)
  | .write addr value =>
    let page := addr.1 / pageSize
    let contents := Function.update (m.mem m.crt page) (addr.1 % pageSize) value
    ([], { m with mem := Function.update m.mem m.crt (Function.update (m.mem m.crt) page contents) })
  | .fork _ => ([], { m with mem := Function.update m.mem m.num (m.mem m.crt), num := m.num + 1 })
  | .release => ([], { m with mem := Function.update m.mem m.crt (fun _ _ => 0) })
  | .switchTo d => ([], if d < m.num then { m with crt := d } else m)
  | .heapFaults _ => ([], m)

end EagerMemory

namespace Paging

open CopyOnWrite Outcome

variable {s t : Paging} {m : EagerMemory}

/-- Every process sees its memory of the reference system. -/
structure Refines (s : Paging) (m : EagerMemory) : Prop where
  wf : s.Wf
  num : m.num = s.dirsNum
  crt : m.crt = s.crt
  view : ∀ d p, d < s.dirsNum → s.pageView (d, p) = m.mem d p

/-- A page that an access reaches after its fault. -/
structure Accessed (s : Paging) (addr : Nat) (permitted : Pte → Bool) (t : Paging) : Prop where
  wf : t.Wf
  crt : t.crt = s.crt
  dirsNum : t.dirsNum = s.dirsNum
  view : t.pageView = s.pageView
  permitted : permitted (t.getPte (addr / pageSize))

/-- After a page fault the page is present and writable. -/
theorem Mapped.entry {p : Nat} (h : Mapped s p t) (hp : isUserPage p) :
    (t.getPte p).present ∧ (t.getPte p).rw := by
  obtain ⟨g, hg, -⟩ := h.ref
  have href : t.refs (t.crt, p) = some ⟨g, true⟩ := by
    rw [hg, h.crt, Function.update_self]
  rw [getPte_user hp, crtDir]
  simp only [refs, PageDir.ref] at href
  split_ifs at href with hlt hcond
  simp only [Option.some.injEq, Ref.mk.injEq] at href
  exact ⟨hcond.2.2, href.2⟩

theorem access_spec (hs : s.Wf) {addr : Nat} (hp : isUserPage (addr / pageSize)) {c : Pte → Bool}
    (hperm : ∀ e : Pte, e.present → e.rw → c e) :
    Ensures Panic.OutOfFrames (s.access addr c) (Accessed s addr c) := by
  rw [access]
  split_ifs with hpermitted
  · exact ⟨hs, rfl, rfl, rfl, hpermitted⟩
  · refine (pageFaultHandler_user hs hp).bind fun t ht => ?_
    have hdone := hperm _ (ht.entry hp).1 (ht.entry hp).2
    rw [if_pos hdone]
    exact ⟨ht.wf, ht.crt, ht.dirsNum, ht.view, hdone⟩

theorem Wf.pageView_present (hs : s.Wf) {p : Nat} (hp : isUserPage p) (hpresent : (s.getPte p).present) :
    s.pageView (s.crt, p) = s.bytes (s.getPte p).frame := by
  rw [getPte_user hp] at hpresent ⊢
  exact Store.view_of_ref (s := s.store) (hs.ref_eq hs.crt_lt hp hpresent)

theorem userRead_spec (h : Refines s m) (addr : UserAddr) :
    Ensures Panic.OutOfFrames (s.userRead addr.1)
      (fun r => r.1 = m.mem m.crt (addr.1 / pageSize) (addr.1 % pageSize) ∧ Refines r.2 m) := by
  refine (access_spec h.wf addr.2 fun e hpresent _ => hpresent).bind fun t ht => ?_
  refine ⟨?_, ht.wf, h.num.trans ht.dirsNum.symm, h.crt.trans ht.crt.symm, ?_⟩
  · have hview := ht.wf.pageView_present addr.2 ht.permitted
    rw [load, ← hview, ht.view, ht.crt, h.crt, h.view _ _ h.wf.crt_lt]
  · intro d p hd
    rw [ht.view]
    exact h.view d p (by rw [← ht.dirsNum]; exact hd)

theorem Wf.storeByte (hs : s.Wf) (addr : Nat) (value : Byte) : (s.storeByte addr value).Wf :=
  ⟨⟨hs.sound.finite, hs.sound.used, hs.sound.count, hs.sound.writable⟩, hs.ready, hs.counts_pos, hs.crt_lt, hs.tables,
    hs.kernel_pde, hs.kernel_rw, hs.size, hs.owner_used, hs.owner_private, hs.owner_inj,
    hs.aligned⟩

/-- A permitted write changes one byte of one page of the current process. -/
theorem Wf.pageView_storeByte (hs : s.Wf) {addr : Nat} (hp : isUserPage (addr / pageSize))
    (hpresent : (s.getPte (addr / pageSize)).present) (hrw : (s.getPte (addr / pageSize)).rw) (value : Byte)
    (x : Nat × Nat) : (s.storeByte addr value).pageView x = if x = (s.crt, addr / pageSize) then
      Function.update (s.pageView x) (addr % pageSize) value else s.pageView x := by
  have hview := hs.pageView_present hp hpresent
  have href : s.store.ref (s.crt, addr / pageSize) = some ⟨(s.getPte (addr / pageSize)).frame, true⟩ := by
    rw [getPte_user hp] at hpresent hrw ⊢
    have href := hs.ref_eq hs.crt_lt hp hpresent
    rw [crtDir] at hrw
    rw [hrw] at href
    exact href
  have hput : (s.storeByte addr value).store = s.store.put (s.getPte (addr / pageSize)).frame
      (Function.update (s.bytes (s.getPte (addr / pageSize)).frame) (addr % pageSize) value) := rfl
  rw [pageView, hput, Store.view_put hs.sound href]
  split_ifs with hx
  · rw [hx, hview]
  · rfl

theorem userWrite_spec (h : Refines s m) (addr : UserAddr) (value : Byte) :
    Ensures Panic.OutOfFrames (s.userWrite addr.1 value) (fun t => Refines t (m.userOp (.write addr value)).2) := by
  refine (access_spec h.wf addr.2 (c := fun e => e.present && e.rw) fun e hpresent hrw => by
    simp [hpresent, hrw]).bind fun t ht => ?_
  have hperm := ht.permitted
  rw [Bool.and_eq_true] at hperm
  refine ⟨ht.wf.storeByte _ _, h.num.trans ht.dirsNum.symm, h.crt.trans ht.crt.symm, ?_⟩
  intro d p hd
  change d < t.dirsNum at hd
  rw [ht.wf.pageView_storeByte addr.2 hperm.1 hperm.2, ht.view, ht.crt, h.view d p (by rw [← ht.dirsNum]; exact hd)]
  simp only [EagerMemory.userOp, h.crt]
  by_cases hx : d = s.crt
  · subst hx
    by_cases hq : p = addr.1 / pageSize
    · subst hq
      simp
    · simp [hq]
  · simp [hx]

theorem fork_spec (h : Refines s m) (heap : CloneHeap) :
    Ensures Panic.OutOfFrames (s.cloneCrtPageDir heap) (fun t => Refines t (m.userOp (.fork heap)).2) := by
  refine (cloneCrtPageDir_spec h.wf heap).mono fun t ht => ?_
  refine ⟨ht.wf, by simp [EagerMemory.userOp, h.num, ht.dirsNum], h.crt.trans ht.crt.symm, ?_⟩
  intro d p hd
  rw [ht.dirsNum] at hd
  simp only [EagerMemory.userOp, h.num, h.crt]
  by_cases hx : d = s.dirsNum
  · subst hx
    rw [ht.copied_view p trivial, h.view _ _ h.wf.crt_lt, Function.update_self]
  · rw [ht.view (d, p) hx, h.view d p (by omega), Function.update_of_ne hx]

theorem release_spec (h : Refines s m) : Refines s.releaseUserSpacePages (m.userOp .release).2 := by
  have ht := releaseUserSpacePages_spec h.wf
  refine ⟨ht.wf, h.num.trans ht.dirsNum.symm, h.crt.trans ht.crt.symm, ?_⟩
  intro d p hd
  rw [ht.dirsNum] at hd
  simp only [EagerMemory.userOp, h.crt]
  by_cases hx : d = s.crt
  · subst hx
    rw [ht.crt_view p, Function.update_self]
  · rw [ht.view (d, p) hx, h.view d p hd, Function.update_of_ne hx]

/-- Each operation reads the same bytes in both systems and keeps the relation. -/
theorem userOp_spec (h : Refines s m) (op : UserOp) :
    Ensures Panic.OutOfFrames (s.userOp op) (fun r => r.1 = (m.userOp op).1 ∧ Refines r.2 (m.userOp op).2) := by
  cases op with
  | read addr =>
    refine (userRead_spec h addr).bind fun r hr => ?_
    exact ⟨by rw [hr.1]; rfl, hr.2⟩
  | write addr value => exact (userWrite_spec h addr value).bind fun t ht => ⟨rfl, ht⟩
  | fork heap => exact (fork_spec h heap).bind fun t ht => ⟨rfl, ht⟩
  | release =>
    refine Ensures.bind (m := fun t => Refines t (m.userOp .release).2) ?_ fun t ht => ⟨rfl, ht⟩
    rw [spaceStep]
    exact release_spec h
  | switchTo d =>
    refine ⟨rfl, ?_⟩
    by_cases hd : d < s.dirsNum
    · simp only [EagerMemory.userOp, h.num, hd, if_true]
      exact ⟨h.wf.switch hd, rfl, rfl, h.view⟩
    · simp only [EagerMemory.userOp, h.num, hd, if_false]
      exact h
  | heapFaults pages =>
    refine (touchPages_spec h.wf.kernelReady pages.2).bind fun t ht => ⟨rfl, h.wf.kernelStep ht, ?_, ?_, ?_⟩
    · exact h.num.trans ht.dirsNum.symm
    · exact h.crt.trans ht.crt.symm
    · intro d p hd
      rw [ht.dirsNum] at hd
      rw [h.wf.pageView_kernelStep ht]
      exact h.view d p hd

theorem Booted.refines (hs : s.Booted) : Refines s .init where
  wf := hs.wf
  num := hs.dirsNum.symm
  crt := hs.crt.symm
  view d p _ := Store.view_of_none (s := s.store) (hs.refs (d, p))

end Paging

end LuckOS
