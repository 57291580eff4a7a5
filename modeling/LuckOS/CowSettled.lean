import LuckOS.CowInterleaving

/-!
# The settled state

A process that has given up its count of a shared frame still reads it later. The
settled state leaves out the entries of such processes: on it the steps of a handler
are primitive operations of the copy-on-write store.
-/

namespace LuckOS.Paging

open CopyOnWrite Outcome Runs

/-- A used frame to which nothing refers. -/
structure Reserved (s : Paging) (g : Nat) : Prop where
  used : s.phyFramesMap.testBit g = true
  refs : ∀ k r, s.refs k = some r → r.frame ≠ g
  owner : ∀ x, s.owner x ≠ some g

/-- A directory without the entry of a fault whose count is already down. -/
def settledDir (dir : PageDir) : Option CowFault → PageDir
  | none => dir
  | some c => if c.phase.hidden then { dir with pte := Function.update dir.pte c.page .zero } else dir

theorem settledDir_visible {dir : PageDir} {o : Option CowFault} (h : ∀ c, o = some c → c.phase.hidden = false) :
    settledDir dir o = dir := by
  cases o with
  | none => rfl
  | some c => simp [settledDir, h c rfl]

theorem settledDir_pde (dir : PageDir) (o : Option CowFault) : (settledDir dir o).pde = dir.pde := by
  cases o with
  | none => rfl
  | some c =>
    rw [settledDir]
    split_ifs <;> rfl

namespace Interleaving

/-- The paging state in which the entries that are counted no more are gone. -/
def settled (st : Interleaving) : Paging :=
  { st.paging with dirs := fun d => settledDir (st.paging.dirs d) (st.fault d) }

/-- What holds of a fault at any time. -/
structure Pending (st : Interleaving) (d : Nat) (c : CowFault) : Prop where
  lt : d < st.paging.dirsNum
  user : isUserPage c.page
  present : ((st.paging.dirs d).pte c.page).present
  readOnly : ((st.paging.dirs d).pte c.page).rw = false
  table : ((st.paging.dirs d).pde (c.page / 1024)).present
  unread : c.phase.copying ∨ c.phase.hidden = false → st.paging.bytes (st.sharedFrame d c) = c.snapshot
  reader : c.phase.copying → ∃ k, st.settled.refs k = some ⟨st.sharedFrame d c, false⟩
  target : ∀ g, c.phase.target = some g → st.settled.Reserved g
  copied : ∀ g, c.phase = .copied g → st.paging.bytes g = c.snapshot
  sole : c.phase = .owning → ∀ k r, st.settled.refs k = some r → r.frame = st.sharedFrame d c → k = (d, c.page)

/-- The invariant of the runs that meet `LastUseApart`. -/
structure Inv (st : Interleaving) : Prop where
  wf : st.settled.Wf
  pending : ∀ d c, st.fault d = some c → st.Pending d c
  apart : ∀ d d' c c', st.fault d = some c → st.fault d' = some c' → c.phase = .owning → c'.phase.copying →
    st.sharedFrame d c ≠ st.sharedFrame d' c'
  targets : ∀ d d' c c' g, st.fault d = some c → st.fault d' = some c' → c.phase.target = some g →
    c'.phase.target = some g → d = d'

/-- What a step of process `d` does to the settled state, but for its own target frame. -/
structure Gentle (e e' : Paging) (d : Nat) (own : Option Nat) : Prop where
  bytes : ∀ k f, e.refs k = some ⟨f, false⟩ → e'.bytes f = e.bytes f
  reserved : ∀ g, own ≠ some g → e.Reserved g → e'.Reserved g ∧ e'.bytes g = e.bytes g
  refs : ∀ q r, e'.refs (d, q) = some r → (∃ r', e.refs (d, q) = some r' ∧ r'.frame = r.frame) ∨
    ∀ k r', e.refs k = some r' → r'.frame ≠ r.frame

variable {st st' : Interleaving} {d : Nat}

/-- Process `d` takes a step: the other directories and faults are untouched. -/
structure Others (st st' : Interleaving) (d : Nat) : Prop where
  dirsNum : st'.paging.dirsNum = st.paging.dirsNum
  dirs : ∀ x, x ≠ d → st'.paging.dirs x = st.paging.dirs x
  fault : ∀ x, x ≠ d → st'.fault x = st.fault x

theorem Others.settled_dirs (h : Others st st' d) {x : Nat} (hx : x ≠ d) :
    st'.settled.dirs x = st.settled.dirs x := by
  simp only [settled, h.dirs x hx, h.fault x hx]

theorem Others.refs (h : Others st st' d) {x : Nat} (hx : x ≠ d) (q : Nat) :
    st'.settled.refs (x, q) = st.settled.refs (x, q) := by
  simp only [Paging.refs, h.settled_dirs hx]
  rw [show st'.settled.dirsNum = st.settled.dirsNum from h.dirsNum]

/-- The entry of a fault that is still counted. -/
theorem Pending.ref {c : CowFault} (h : st.Pending d c) (hfault : st.fault d = some c) (hvisible : c.phase.hidden = false) :
    st.settled.refs (d, c.page) = some ⟨st.sharedFrame d c, false⟩ := by
  have hdir : st.settled.dirs d = st.paging.dirs d := by
    simp [settled, hfault, settledDir, hvisible]
  have hlt : d < st.settled.dirsNum := h.lt
  simp [Paging.refs, PageDir.ref, hlt, hdir, h.user, h.table, h.present, h.readOnly, sharedFrame]

/-- A fault of another process stays as it is. -/
theorem Pending.step {own : Option Nat} {x : Nat} {c : CowFault} (h : st.Pending x c) (hfault : st.fault x = some c)
    (hx : x ≠ d) (ho : Others st st' d) (hg : Gentle st.settled st'.settled d own) (hown : ∀ g, c.phase.target = some g → own ≠ some g)
    (hreader : c.phase.copying → ∃ k, st'.settled.refs k = some ⟨st.sharedFrame x c, false⟩) : st'.Pending x c := by
  have hframe : st'.sharedFrame x c = st.sharedFrame x c := by
    rw [sharedFrame, sharedFrame, ho.dirs x hx]
  refine ⟨?_, h.user, ?_, ?_, ?_, ?_, ?_, ?_, ?_, ?_⟩
  · rw [ho.dirsNum]
    exact h.lt
  · rw [ho.dirs x hx]
    exact h.present
  · rw [ho.dirs x hx]
    exact h.readOnly
  · rw [ho.dirs x hx]
    exact h.table
  · intro hphase
    obtain ⟨k, hk⟩ : ∃ k, st.settled.refs k = some ⟨st.sharedFrame x c, false⟩ := by
      rcases hphase with hcopying | hvisible
      · exact h.reader hcopying
      · exact ⟨_, h.ref hfault hvisible⟩
    rw [hframe]
    exact (hg.bytes k _ hk).trans (h.unread hphase)
  · rw [hframe]
    exact hreader
  · intro g hgt
    exact (hg.reserved g (hown g hgt) (h.target g hgt)).1
  · intro g hphase
    have hgt : c.phase.target = some g := by rw [hphase]; rfl
    exact (hg.reserved g (hown g hgt) (h.target g hgt)).2.trans (h.copied g hphase)
  · rintro hphase ⟨y, q⟩ r hr hrf
    rw [hframe] at hrf
    by_cases hy : y = d
    · subst hy
      rcases hg.refs q r hr with ⟨r', hr', hf⟩ | hfresh
      · exact h.sole hphase _ r' hr' (hf.trans hrf)
      · exact absurd hrf.symm (hfresh _ _ (h.ref hfault (by rw [hphase]; rfl)))
    · rw [ho.refs hy] at hr
      exact h.sole hphase _ r hr hrf

/-- A step keeps the invariant if the process that takes it keeps its own part. -/
theorem Inv.step (h : st.Inv) (own : Option Nat) (ho : Others st st' d) (hg : Gentle st.settled st'.settled d own)
    (hwf : st'.settled.Wf)
    (hreader : ∀ x c, x ≠ d → st.fault x = some c → c.phase.copying →
      ∃ k, st'.settled.refs k = some ⟨st.sharedFrame x c, false⟩)
    (hown : ∀ x c g, x ≠ d → st.fault x = some c → c.phase.target = some g → own ≠ some g)
    (hself : ∀ c, st'.fault d = some c → st'.Pending d c ∧ c.phase.target = own ∧
      (c.phase = .owning → ∀ x, x ≠ d → ¬ st.Copying x (st'.sharedFrame d c)) ∧
      (c.phase.copying → ∀ x c', x ≠ d → st.fault x = some c' → c'.phase = .owning →
        st.sharedFrame x c' ≠ st'.sharedFrame d c)) : st'.Inv := by
  have hfault : ∀ x c, x ≠ d → st'.fault x = some c → st.fault x = some c := by
    intro x c hx hc
    rw [← ho.fault x hx]
    exact hc
  have hframe : ∀ x c, x ≠ d → st'.sharedFrame x c = st.sharedFrame x c := by
    intro x c hx
    rw [sharedFrame, sharedFrame, ho.dirs x hx]
  refine ⟨hwf, ?_, ?_, ?_⟩
  · intro x c hc
    by_cases hx : x = d
    · subst hx
      exact (hself c hc).1
    · have hold := hfault x c hx hc
      exact (h.pending x c hold).step hold hx ho hg (fun g => hown x c g hx hold) (hreader x c hx hold)
  · intro x y c c' hc hc' hphase hcopying
    by_cases hx : x = d <;> by_cases hy : y = d
    · subst hx
      subst hy
      rw [hc, Option.some.injEq] at hc'
      rw [← hc', hphase] at hcopying
      simp [CowPhase.copying] at hcopying
    · subst hx
      intro heq
      refine (hself c hc).2.2.1 hphase y hy ⟨c', hfault y c' hy hc', hcopying, ?_⟩
      rw [heq, hframe y c' hy]
    · subst hy
      rw [hframe x c hx]
      exact (hself c' hc').2.2.2 hcopying x c hx (hfault x c hx hc) hphase
    · rw [hframe x c hx, hframe y c' hy]
      exact h.apart x y c c' (hfault x c hx hc) (hfault y c' hy hc') hphase hcopying
  · intro x y c c' g hc hc' hgt hgt'
    by_cases hx : x = d <;> by_cases hy : y = d
    · rw [hx, hy]
    · subst hx
      exact absurd ((hself c hc).2.1.symm.trans hgt) (hown y c' g hy (hfault y c' hy hc') hgt')
    · subst hy
      exact absurd ((hself c' hc').2.1.symm.trans hgt') (hown x c g hx (hfault x c hx hc) hgt)
    · exact h.targets x y c c' g (hfault x c hx hc) (hfault y c' hy hc') hgt hgt'

/-- The settled state while process `d` runs. -/
def settledAt (st : Interleaving) (d : Nat) : Paging := { st.settled with crt := d }

/-- Process `d` handles no fault whose count is already down. -/
def Visible (st : Interleaving) (d : Nat) : Prop := ∀ c, st.fault d = some c → c.phase.hidden = false

theorem visible_of_none (h : st.fault d = none) : st.Visible d := by
  intro c hc
  simp [h] at hc

theorem Visible.settled_dirs (h : st.Visible d) : st.settled.dirs d = st.paging.dirs d := settledDir_visible h

theorem Visible.running (h : st.Visible d) : (st.running d).withOthers st.settled.dirs = st.settledAt d := by
  have hdirs : ((st.running d).withOthers st.settled.dirs).dirs = st.settled.dirs := by
    funext x
    by_cases hx : x = d
    · subst hx
      rw [h.settled_dirs]
      exact if_pos rfl
    · exact withOthers_dirs_of_ne hx
  simp only [withOthers] at hdirs
  simp only [settledAt, withOthers, hdirs]
  rfl

theorem running_withOthers (st : Interleaving) (d : Nat) : (st.running d).withOthers st.paging.dirs = st.running d :=
  withOthers_self fun _ _ => rfl

/-- A local operation of process `d` acts on the settled state. -/
theorem settled_of_withOthers (st : Interleaving) (fault : Nat → Option CowFault) {t : Paging} (ht : t.withOthers st.paging.dirs = t)
    (hcrt : t.crt = d) (hfault : ∀ x, x ≠ d → fault x = st.fault x) (hvisible : Visible ⟨t, fault⟩ d) :
    settled ⟨t, fault⟩ = t.withOthers st.settled.dirs ∧ ∀ x, x ≠ d → t.dirs x = st.paging.dirs x := by
  have hothers : ∀ x, x ≠ d → t.dirs x = st.paging.dirs x := by
    intro x hx
    rw [← ht]
    exact withOthers_dirs_of_ne (by rw [hcrt]; exact hx)
  have hdirs : (settled ⟨t, fault⟩).dirs = (t.withOthers st.settled.dirs).dirs := by
    funext x
    by_cases hx : x = d
    · subst hx
      rw [hvisible.settled_dirs]
      exact (if_pos hcrt.symm).symm
    · rw [withOthers_dirs_of_ne (by rw [hcrt]; exact hx)]
      simp only [settled, hothers x hx, hfault x hx]
  refine ⟨?_, hothers⟩
  simp only [settled, withOthers] at hdirs ⊢
  simp only [hdirs]

/-- An operation that commutes with `withOthers` acts on the settled state. -/
theorem Visible.settled_local (h : st.Visible d) {f : Paging → Paging}
    (hf : ∀ s dirs, f (s.withOthers dirs) = (f s).withOthers dirs) (hcrt : (f (st.settledAt d)).crt = d) :
    settled ⟨f (st.running d), st.fault⟩ = f (st.settledAt d) ∧
      ∀ x, x ≠ d → (f (st.running d)).dirs x = st.paging.dirs x := by
  have hself : (f (st.running d)).withOthers st.paging.dirs = f (st.running d) := by
    rw [← hf, running_withOthers]
  have hcrt' : (f (st.running d)).crt = d := by
    rw [← h.running, hf] at hcrt
    exact hcrt
  obtain ⟨hsettled, hdirs⟩ := settled_of_withOthers st st.fault (d := d) (t := f (st.running d)) hself hcrt'
    (fun _ _ => rfl) h
  exact ⟨by rw [hsettled, ← hf, h.running], hdirs⟩

end Interleaving

namespace Wf

variable {e : Paging} {k : Nat × Nat} {f : Nat}

/-- A frame that is counted has a second reader. -/
theorem exists_reader (hs : e.Wf) (hk : e.refs k = some ⟨f, false⟩) (hcount : 0 < e.cowCount f) :
    ∃ k', k' ≠ k ∧ e.refs k' = some ⟨f, false⟩ := by
  obtain ⟨k', hne, w, hk'⟩ := hs.sound.exists_other (k := k) hcount
  cases w with
  | false => exact ⟨k', hne, hk'⟩
  | true =>
    have hmem : k ∈ e.store.sharers f := ⟨false, hk⟩
    rw [hs.sound.writable k' f hk'] at hmem
    exact absurd hmem.symm hne

theorem ne_of_reader (hs : e.Wf) (hk : e.refs k = some ⟨f, false⟩) {k' : Nat × Nat} {f' : Nat}
    (hk' : e.refs k' = some ⟨f', true⟩) : f ≠ f' := by
  rintro rfl
  have hmem : k ∈ e.store.sharers f := ⟨false, hk⟩
  rw [hs.sound.writable k' f hk'] at hmem
  obtain rfl : k = k' := hmem
  rw [hk] at hk'
  simp at hk'

/-- `Wf` is not about bytes. -/
theorem withBytes (hs : e.Wf) (bytes : Nat → Nat → Byte) : ({ e with bytes := bytes } : Paging).Wf :=
  ⟨⟨hs.sound.finite, hs.sound.used, hs.sound.count, hs.sound.writable⟩, hs.ready, hs.counts_pos, hs.crt_lt, hs.tables,
    hs.kernel_pde, hs.kernel_rw, hs.size, hs.owner_used, hs.owner_private, hs.owner_inj, hs.aligned⟩

end Wf

/-- The count of a frame that is not counted stays zero. -/
theorem changeCowFrameRefcount_zero {e : Paging} {f : Nat} (hready : e.copyOnWriteReady = true)
    (hpos : ∀ f c, e.frameCowRefCounts f = some c → 0 < c) (hcount : e.cowCount f = 0) :
    e.changeCowFrameRefcount f (-1) = (0, e) := by
  have hnone : e.frameCowRefCounts f = none := by
    cases h : e.frameCowRefCounts f with
    | none => rfl
    | some c =>
      have hlt := hpos f c h
      simp only [cowCount, h, Option.getD_some] at hcount
      omega
  have hupdate : Function.update e.frameCowRefCounts f none = e.frameCowRefCounts := by
    rw [Function.update_eq_self_iff, hnone]
  rw [changeCowFrameRefcount, if_neg (by simp [hready])]
  simp [hnone, hupdate]

end LuckOS.Paging
