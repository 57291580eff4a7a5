import LuckOS.PagingLocality
import LuckOS.ProcessFrames
import LuckOS.Runs

/-!
# Copy-on-write faults under preemption

Interrupts are enabled while a page fault is handled. The copy-on-write branch of
`map_page_with_frame_impl` is cut into the steps between which another process can
run: the count goes down, a frame is allocated, the page is copied, the entry is
updated. A fault carries the bytes that its page held when it was raised.
-/

namespace LuckOS.Paging

open CopyOnWrite Outcome Runs

/-- How far the copy-on-write branch has come. `owning` is the branch for a frame that has
no other reference. -/
inductive CowPhase where
  | raised
  | decremented
  | allocated (frame : Nat)
  | copied (frame : Nat)
  | owning
  deriving DecidableEq

/-- A copy-on-write fault that is being handled. No code reads `snapshot`. -/
structure CowFault where
  page : Nat
  snapshot : Nat → Byte
  phase : CowPhase

/-- The paging state and the fault that each process is handling. -/
structure Interleaving where
  paging : Paging
  fault : Nat → Option CowFault

inductive CowAction where
  | raise (d : Nat) (addr : UserAddr)
  | serve (d : Nat)
  | write (d : Nat) (addr : UserAddr) (value : Byte)
  | touch (d : Nat) (addr : UserAddr)
  | releasePage (d : Nat) (page : Nat)
  | releaseTable (d : Nat) (pdeIndex : Nat)

/-- The next step of the copy-on-write branch, and the fault that is left to handle. -/
def serveFault (s : Paging) (c : CowFault) : Option (Paging × Option CowFault) :=
  let pte := s.getPte c.page
  match c.phase with
  | .raised =>
    let (cowRefs, s) := s.changeCowFrameRefcount pte.frame (-1)
    some (s, some { c with phase := if 0 < cowRefs then .decremented else .owning })
  | .decremented => s.allocatePhyFrame.map (fun r => (r.2, some { c with phase := .allocated r.1 }))
  | .allocated frame =>
    match s.mapPageWithFrameImpl 1 copiedPageVaddr frame with
    | .error _ => none
    | .ok s => some (s.memcpyPage copiedPageVaddr (c.page * pageSize), some { c with phase := .copied frame })
  | .copied frame =>
    let s := s.setPte c.page { pte with frame := frame, rw := true }
    some (s.releasePages copiedPageVaddr 1 false, none)
  | .owning => some (s.setPte c.page { pte with rw := true }, none)

namespace Interleaving

/-- The paging state while process `d` runs. -/
def running (st : Interleaving) (d : Nat) : Paging := { st.paging with crt := d }

/-- One step of a process. A process that handles a fault does nothing else but write to
its other pages. -/
def step (st : Interleaving) : CowAction → Option Interleaving
  | .raise d addr =>
    let pte := (st.running d).getPte (addr.1 / pageSize)
    if d < st.paging.dirsNum ∧ st.fault d = none ∧ pte.present ∧ !pte.rw then
      some ⟨st.running d, Function.update st.fault d
        (some ⟨addr.1 / pageSize, st.paging.bytes pte.frame, .raised⟩)⟩
    else none
  | .serve d =>
    match st.fault d with
    | none => none
    | some c => (serveFault (st.running d) c).map (fun r => ⟨r.1, Function.update st.fault d r.2⟩)
  | .write d addr value =>
    let pte := (st.running d).getPte (addr.1 / pageSize)
    if d < st.paging.dirsNum ∧ pte.present ∧ pte.rw then some ⟨(st.running d).storeByte addr.1 value, st.fault⟩
    else none
  | .touch d addr =>
    let pte := (st.running d).getPte (addr.1 / pageSize)
    if d < st.paging.dirsNum ∧ st.fault d = none ∧ !pte.present then
      match (st.running d).pageFaultHandler addr.1 with
      | .error _ => none
      | .ok s => some ⟨s, st.fault⟩
    else none
  | .releasePage d page =>
    if d < st.paging.dirsNum ∧ st.fault d = none ∧ isUserPage page then
      some ⟨(st.running d).releasePage (page * pageSize) true, st.fault⟩
    else none
  | .releaseTable d pdeIndex =>
    if d < st.paging.dirsNum ∧ st.fault d = none ∧ isUserTable pdeIndex ∧ ((st.running d).getPde pdeIndex).present ∧
        ∀ page < 768 * 1024, ((st.paging.dirs d).ref page).isNone then
      some ⟨(st.running d).dropTable pdeIndex, st.fault⟩
    else none

end Interleaving

namespace CowPhase

/-- The count is already down, but the shared frame still has to be read. -/
def copying : CowPhase → Bool
  | .decremented | .allocated _ => true
  | _ => false

/-- The entry still refers to the shared frame, but is counted no more. -/
def hidden : CowPhase → Bool
  | .decremented | .allocated _ | .copied _ => true
  | _ => false

/-- The frame that was allocated for the copy. -/
def target : CowPhase → Option Nat
  | .allocated frame | .copied frame => some frame
  | _ => none

end CowPhase

namespace Interleaving

/-- The shared frame of a fault of process `d`. -/
def sharedFrame (st : Interleaving) (d : Nat) (c : CowFault) : Nat := ((st.paging.dirs d).pte c.page).frame

/-- Process `d` gave up its count of the frame `f` and has not copied it yet. -/
def Copying (st : Interleaving) (d f : Nat) : Prop :=
  ∃ c, st.fault d = some c ∧ c.phase.copying ∧ st.sharedFrame d c = f

/-- The frame whose count an action finds at zero: the process then takes it over, or
gives it back. -/
def lastUse (st : Interleaving) : CowAction → Option Nat
  | .serve d =>
    match st.fault d with
    | some c =>
      if c.phase = .raised ∧ st.paging.cowCount (st.sharedFrame d c) = 0 then some (st.sharedFrame d c) else none
    | none => none
  | .releasePage d page =>
    let pte := (st.paging.dirs d).pte page
    if pte.present ∧ st.paging.cowCount pte.frame = 0 then some pte.frame else none
  | _ => none

/-- No frame is taken over or given back while another process is about to copy it. -/
def LastUseApart (st : Interleaving) (a : CowAction) : Prop :=
  ∀ f, st.lastUse a = some f → ∀ d, ¬ st.Copying d f

/-- A fault that process `d` has just completed left it a writable page with the bytes of
the moment at which the fault was raised. -/
def Isolated (st st' : Interleaving) (d : Nat) : Prop :=
  ∀ c, st.fault d = some c → st'.fault d = none →
    ((st'.paging.dirs d).pte c.page).present ∧ ((st'.paging.dirs d).pte c.page).rw ∧
      st'.paging.bytes (st'.sharedFrame d c) = c.snapshot

end Interleaving

end LuckOS.Paging
