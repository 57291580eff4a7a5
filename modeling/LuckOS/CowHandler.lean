import LuckOS.CowSettled

/-!
# Steps of a handler

The steps of a copy-on-write fault on the settled state: the handler gives up its count, allocates a frame,
copies the page and maps the copy, or takes over a frame that is not shared.
-/

namespace LuckOS.Paging

open CopyOnWrite Outcome Runs

namespace Interleaving

variable {st st' : Interleaving} {d : Nat} {c : CowFault}

theorem Inv.settledAt (h : st.Inv) (hd : d < st.paging.dirsNum) : (st.settledAt d).Wf := h.wf.switch hd

/-- Nothing but the current process changes. -/
theorem gentle_settledAt (st : Interleaving) (d : Nat) : Gentle st.settled (st.settledAt d) d none :=
  ⟨fun _ _ _ => rfl, fun _ _ hg => ⟨⟨hg.used, hg.refs, hg.owner⟩, rfl⟩, fun _ r hr => .inl ⟨r, hr, rfl⟩⟩

/-- A phase changes and the settled state stays. -/
theorem Inv.setPhase (h : st.Inv) (hd : d < st.paging.dirsNum) (hsettled : settled ⟨st.running d, Function.update st.fault d (some c)⟩ = st.settledAt d)
    (hself : Pending ⟨st.running d, Function.update st.fault d (some c)⟩ d c) (htarget : c.phase.target = none)
    (hcopying : c.phase.copying = false)
    (howning : c.phase = .owning → ∀ x, x ≠ d → ¬ st.Copying x (st.sharedFrame d c)) :
    Inv ⟨st.running d, Function.update st.fault d (some c)⟩ := by
  refine h.step (d := d) none ⟨rfl, fun _ _ => rfl, fun x hx => Function.update_of_ne hx _ _⟩ ?_ ?_ ?_ ?_ ?_
  · rw [hsettled]
    exact gentle_settledAt st d
  · rw [hsettled]
    exact h.settledAt hd
  · intro x c' hx hc' hcopying'
    rw [hsettled]
    exact (h.pending x c' hc').reader hcopying'
  · intro x c' g _ _ _
    simp
  · intro c' hc'
    obtain rfl : c = c' := by simpa using hc'
    refine ⟨hself, htarget, howning, fun hcopying' => ?_⟩
    simp [hcopying] at hcopying'

/-- A copy-on-write fault is raised. -/
theorem Inv.raise (h : st.Inv) {p : Nat} (hd : d < st.paging.dirsNum) (hnone : st.fault d = none) (hp : isUserPage p)
    (hpresent : ((st.paging.dirs d).pte p).present) (hrw : ((st.paging.dirs d).pte p).rw = false) :
    Inv ⟨st.running d, Function.update st.fault d
      (some ⟨p, st.paging.bytes ((st.paging.dirs d).pte p).frame, .raised⟩)⟩ := by
  have hdir := (visible_of_none hnone).settled_dirs
  have htable : ((st.paging.dirs d).pde (p / 1024)).present := by
    have htable := h.wf.tables d hd p hp
    rw [hdir] at htable
    exact htable hpresent
  refine h.setPhase hd ?_ ⟨hd, hp, hpresent, hrw, htable, fun _ => rfl, ?_, ?_, ?_, ?_⟩ rfl rfl ?_
  · have hdirs : (fun x => settledDir (st.paging.dirs x) (Function.update st.fault d
        (some ⟨p, st.paging.bytes ((st.paging.dirs d).pte p).frame, .raised⟩) x)) =
        fun x => settledDir (st.paging.dirs x) (st.fault x) := by
      funext x
      by_cases hx : x = d
      · subst hx
        simp [hnone, settledDir, CowPhase.hidden]
      · simp [hx]
    simp only [settled, running, Interleaving.settledAt, hdirs]
  all_goals simp [CowPhase.copying, CowPhase.target]

/-- A phase that hides the entry as the old one does leaves the settled directories. -/
theorem settledDir_setPhase (hfault : st.fault d = some c) (phase : CowPhase) (hphase : phase.hidden = c.phase.hidden) :
    (fun x => settledDir (st.paging.dirs x) (Function.update st.fault d (some { c with phase := phase }) x)) =
      st.settled.dirs := by
  funext x
  by_cases hx : x = d
  · subst hx
    simp [settled, hfault, settledDir, hphase]
  · simp [settled, hx]

/-- The handler finds no further reference. -/
theorem Inv.takeOver (h : st.Inv) (hfault : st.fault d = some c) (hphase : c.phase = .raised)
    (hcount : st.paging.cowCount (st.sharedFrame d c) = 0)
    (hapart : ∀ x, ¬ st.Copying x (st.sharedFrame d c)) :
    Inv ⟨st.running d, Function.update st.fault d (some { c with phase := .owning })⟩ := by
  have hpending := h.pending d c hfault
  have hvisible : c.phase.hidden = false := by rw [hphase]; rfl
  have href := hpending.ref hfault hvisible
  have hsettled : settled ⟨st.running d, Function.update st.fault d (some { c with phase := .owning })⟩ = st.settledAt d := by
    have hdirs := settledDir_setPhase hfault .owning (by rw [hphase]; rfl)
    simp only [settled, running, Interleaving.settledAt] at hdirs ⊢
    rw [hdirs]
  refine h.setPhase hpending.lt hsettled ⟨hpending.lt, hpending.user, hpending.present, hpending.readOnly, hpending.table,
    fun _ => hpending.unread (.inr hvisible), ?_, ?_, ?_, ?_⟩ rfl rfl (fun _ x _ => hapart x)
  · simp [CowPhase.copying]
  · simp [CowPhase.target]
  · simp
  · rw [hsettled]
    intro _ k r hk hr
    have hmem : k ∈ st.settled.store.sharers (st.sharedFrame d c) := by
      have hmem := Store.mem_sharers (s := st.settled.store) hk
      rw [hr] at hmem
      exact hmem
    rw [h.wf.sound.sharers_eq_singleton href hcount] at hmem
    exact hmem

theorem Gentle.of_settledAt {e : Paging} {own : Option Nat} (h : Gentle (st.settledAt d) e d own) :
    Gentle st.settled e d own :=
  ⟨h.bytes, fun g hne hg => h.reserved g hne ⟨hg.used, hg.refs, hg.owner⟩, h.refs⟩

/-- Dropping an entry gives back no reserved frame. -/
theorem gentle_of_dropped {s t : Paging} {p : Nat} (h : Dropped s p t) : Gentle s t s.crt none := by
  have hrefs : ∀ k r, t.refs k = some r → s.refs k = some r := by
    intro k r hk
    rw [h.refs] at hk
    by_cases hkey : k = (s.crt, p)
    · simp [hkey] at hk
    · rwa [Function.update_of_ne hkey] at hk
  refine ⟨fun k f _ => by rw [h.bytes], fun g _ hg => ⟨⟨?_, ?_, ?_⟩, by rw [h.bytes]⟩, fun q r hr => .inl ⟨r, hrefs _ r hr, rfl⟩⟩
  · rcases h.used g hg.used with hlast | hused
    · rw [lastFrame] at hlast
      cases href : s.refs (s.crt, p) with
      | none => simp [href] at hlast
      | some r =>
        simp only [href] at hlast
        split_ifs at hlast
        exact absurd (Option.some.inj hlast) (hg.refs _ r href)
    · exact hused
  · intro k r hk
    exact hg.refs k r (hrefs k r hk)
  · intro x hx
    apply hg.owner x
    simpa [Paging.owner, h.dirsNum, h.pde, h.frame] using hx

/-- The settled state of a hidden fault lacks its entry. -/
theorem settled_refs_hidden (hfault : st.fault d = some c) (hhidden : c.phase.hidden) :
    st.settled.refs (d, c.page) = none := by
  apply refs_of_absent
  simp [settled, hfault, settledDir, hhidden, Pte.zero]

/-- The handler gives up its count: on the settled state it drops its entry. -/
theorem Inv.decrement (h : st.Inv) (hfault : st.fault d = some c) (hphase : c.phase = .raised)
    (hcount : 0 < st.paging.cowCount (st.sharedFrame d c)) {counts : Nat → Option Int}
    (hpos : ∀ f n, counts f = some n → 0 < n)
    (hcounts : ∀ f, ((counts f).getD 0).toNat = Function.update st.paging.cowCount (st.sharedFrame d c)
      (st.paging.cowCount (st.sharedFrame d c) - 1) f) :
    Inv ⟨{ st.running d with frameCowRefCounts := counts },
      Function.update st.fault d (some { c with phase := .decremented })⟩ := by
  have hpending := h.pending d c hfault
  have hvisible : c.phase.hidden = false := by rw [hphase]; rfl
  have href := hpending.ref hfault hvisible
  have hdir : st.settled.dirs d = st.paging.dirs d := by
    simp [settled, hfault, settledDir, hvisible]
  have hwf := h.settledAt hpending.lt
  set st' : Interleaving := ⟨{ st.running d with frameCowRefCounts := counts },
    Function.update st.fault d (some { c with phase := .decremented })⟩ with hst'
  have hdirs : st'.settled.dirs = ((st.settledAt d).setPte c.page .zero).dirs := by
    rw [setPte_user hpending.user, setCrtDir, crtDir]
    funext x
    by_cases hx : x = d
    · subst hx
      simp [hst', settled, Interleaving.settledAt, running, settledDir, CowPhase.hidden, hfault, hphase]
    · simp [hst', settled, Interleaving.settledAt, running, hx]
  have hframe : (((st.settledAt d).dirs (st.settledAt d).crt).pte c.page).frame = st.sharedFrame d c := by
    change ((st.settled.dirs d).pte c.page).frame = _
    rw [hdir]
    rfl
  have hdropped : Dropped (st.settledAt d) c.page st'.settled := by
    refine hwf.dropped_present hpending.user ?_ ⟨hdirs, rfl, rfl, rfl, rfl, fun hk => hk⟩ hpos ?_ ?_ rfl ?_
    · change ((st.settled.dirs d).pte c.page).present
      rw [hdir]
      exact hpending.present
    · rw [hframe]
      exact funext hcounts
    · intro f
      rw [hframe]
      have hnot : ¬ (f = st.sharedFrame d c ∧ (st.settledAt d).cowCount f = 0) := by
        rintro ⟨rfl, hzero⟩
        exact hcount.ne' hzero
      simp only [hnot, decide_false, Bool.not_false, Bool.and_true]
      rfl
    · rw [hframe, if_neg (show (st.settledAt d).cowCount (st.sharedFrame d c) ≠ 0 from hcount.ne')]
      rfl
  have hrefs : st'.settled.refs = Function.update st.settled.refs (d, c.page) none := hdropped.refs
  have hreader : ∀ k f, st.settled.refs k = some ⟨f, false⟩ → ∃ k', st'.settled.refs k' = some ⟨f, false⟩ := by
    intro k f hk
    rw [hrefs]
    by_cases hkey : k = (d, c.page)
    · subst hkey
      rw [href] at hk
      cases hk
      obtain ⟨k', hne, hk'⟩ := h.wf.exists_reader href hcount
      exact ⟨k', by rw [Function.update_of_ne hne]; exact hk'⟩
    · exact ⟨k, by rw [Function.update_of_ne hkey]; exact hk⟩
  refine h.step (d := d) none ⟨rfl, fun _ _ => rfl, fun x hx => Function.update_of_ne hx _ _⟩
    (gentle_of_dropped hdropped).of_settledAt hdropped.wf ?_ (by simp) ?_
  · intro x c' hx hc' hcopying
    obtain ⟨k, hk⟩ := (h.pending x c' hc').reader hcopying
    exact hreader k _ hk
  · intro c' hc'
    obtain rfl : { c with phase := .decremented } = c' := by simpa [hst'] using hc'
    refine ⟨⟨hpending.lt, hpending.user, hpending.present, hpending.readOnly, hpending.table,
      fun _ => hpending.unread (.inr hvisible), fun _ => hreader _ _ href, ?_, ?_, ?_⟩, rfl, ?_, ?_⟩
    · simp [CowPhase.target]
    · simp
    · simp
    · simp
    · intro _ x c' hx hc' howning heq
      have hsole := (h.pending x c' hc').sole howning _ _ href heq.symm
      simp only [Prod.mk.injEq] at hsole
      exact hx hsole.1.symm

theorem gentle_of_kernelStep {e e' : Paging} (hs : e.Wf) (h : KernelStep e e') (d : Nat) (own : Option Nat) :
    Gentle e e' d own where
  bytes k f hk := h.bytes f (hs.sound.used k _ hk)
  reserved g _ hg := by
    refine ⟨⟨h.used g hg.used, ?_, ?_⟩, h.bytes g hg.used⟩
    · rw [h.refs]
      exact hg.refs
    · rw [h.owner]
      exact hg.owner
  refs q r hr := by
    rw [h.refs] at hr
    exact .inl ⟨r, hr, rfl⟩

/-- The handler allocates the frame for the copy. -/
theorem Inv.allocate (h : st.Inv) (hfault : st.fault d = some c) (hphase : c.phase = .decremented) {g : Nat} {t : Paging}
    (halloc : (st.running d).allocatePhyFrame = some (g, t)) :
    Inv ⟨t, Function.update st.fault d (some { c with phase := .allocated g })⟩ := by
  have hpending := h.pending d c hfault
  have hwf := h.settledAt hpending.lt
  set st' : Interleaving := ⟨t, Function.update st.fault d (some { c with phase := .allocated g })⟩ with hst'
  have hdirs := settledDir_setPhase hfault (.allocated g) (by rw [hphase]; rfl)
  have hsettled : (st.settledAt d).allocatePhyFrame = some (g, st'.settled) := by
    obtain ⟨⟨n, b⟩, hn, he⟩ := Option.map_eq_some_iff.mp halloc
    cases he
    rw [allocatePhyFrame, show (st.settledAt d).phyFramesMap = (st.running d).phyFramesMap from rfl, hn]
    simp only [hst', settled, running, hdirs]
    rfl
  obtain ⟨hstep, hfree, hused, -⟩ := allocatePhyFrame_spec hwf.size hsettled
  have hkept := allocatePhyFrame_spec (s := st.running d) hwf.size halloc
  have hrefs : st'.settled.refs = st.settled.refs := hstep.refs
  have howner : st'.settled.owner = st.settled.owner := hstep.owner
  refine h.step (d := d) (some g) ⟨hkept.1.dirsNum, fun x _ => by rw [hkept.1.dirs]; rfl, fun x hx => Function.update_of_ne hx _ _⟩
    (gentle_of_kernelStep hwf hstep d _).of_settledAt (hwf.kernelStep hstep) ?_ ?_ ?_
  · intro x c' hx hc' hcopying
    rw [hrefs]
    exact (h.pending x c' hc').reader hcopying
  · rintro x c' g' hx hc' htarget ⟨⟩
    have hbusy := ((h.pending x c' hc').target g htarget).used
    rw [show st.settled.phyFramesMap.testBit g = false from hfree] at hbusy
    exact absurd hbusy (by simp)
  · intro c' hc'
    obtain rfl : { c with phase := .allocated g } = c' := by simpa [hst'] using hc'
    have hframe : st'.sharedFrame d { c with phase := .allocated g } = st.sharedFrame d c := by
      simp only [sharedFrame, hst', hkept.1.dirs]
      rfl
    refine ⟨⟨?_, hpending.user, ?_, ?_, ?_, ?_, ?_, ?_, ?_, ?_⟩, rfl, by simp, ?_⟩
    · exact hkept.1.dirsNum ▸ hpending.lt
    · rw [hst', hkept.1.dirs]
      exact hpending.present
    · rw [hst', hkept.1.dirs]
      exact hpending.readOnly
    · rw [hst', hkept.1.dirs]
      exact hpending.table
    · intro _
      rw [hframe]
      refine Eq.trans ?_ (hpending.unread (.inl (by rw [hphase]; rfl)))
      rw [hst', hkept.2.2.2.2.2.1]
      rfl
    · intro _
      rw [hframe, hrefs]
      exact hpending.reader (by rw [hphase]; rfl)
    · rintro g' ⟨⟩
      refine ⟨hused, ?_, ?_⟩
      · rw [hrefs]
        exact hwf.free_refs hfree
      · rw [howner]
        exact hwf.free_owner hfree
    · simp
    · simp
    · intro _ x c' hx hc' howning
      rw [hframe]
      exact h.apart x d c' c hc' hfault howning (by rw [hphase]; rfl)

/-- The state after the copy through the window. -/
def afterCopy (st : Interleaving) (d : Nat) (c : CowFault) (g : Nat) : Paging :=
  { (st.running d).setPte (copiedPageVaddr / pageSize) (.mapTo g) with
    bytes := Function.update st.paging.bytes g (st.paging.bytes (st.sharedFrame d c)) }

/-- The handler copies the page. -/
theorem Inv.copy (h : st.Inv) (hfault : st.fault d = some c) {g : Nat} (hphase : c.phase = .allocated g) :
    Inv ⟨st.afterCopy d c g, Function.update st.fault d (some { c with phase := .copied g })⟩ := by
  have hpending := h.pending d c hfault
  have hwf := h.settledAt hpending.lt
  have hreserved := hpending.target g (by rw [hphase]; rfl)
  have hk := isKernelPage_copiedPage
  set st' : Interleaving := ⟨st.afterCopy d c g, Function.update st.fault d (some { c with phase := .copied g })⟩
    with hst'
  have hdirs := settledDir_setPhase hfault (.copied g) (by rw [hphase]; rfl)
  have hpaging : st.afterCopy d c g =
      { st.running d with
        kernelPte := Function.update st.paging.kernelPte (copiedPageVaddr / pageSize) (.mapTo g)
        bytes := Function.update st.paging.bytes g (st.paging.bytes (st.sharedFrame d c)) } := by
    rw [afterCopy, setPte_kernel hk]
    rfl
  have hsettled : st'.settled = { (st.settledAt d).setPte (copiedPageVaddr / pageSize) (.mapTo g) with
      bytes := Function.update st.paging.bytes g (st.paging.bytes (st.sharedFrame d c)) } := by
    rw [setPte_kernel hk, hst', hpaging]
    simp only [settled, running, hdirs]
    rfl
  have hstep : KernelStep (st.settledAt d) ((st.settledAt d).setPte (copiedPageVaddr / pageSize) (.mapTo g)) :=
    kernelStep_setPte hk fun _ => rfl
  have hrefs : st'.settled.refs = st.settled.refs := by
    rw [hsettled]
    exact hstep.refs
  have howner : st'.settled.owner = st.settled.owner := by
    rw [hsettled]
    exact hstep.owner
  have hused : st'.settled.phyFramesMap = st.settled.phyFramesMap := by
    rw [hsettled, setPte_kernel hk]
    rfl
  have hbytes : ∀ f, f ≠ g → st'.settled.bytes f = st.settled.bytes f := by
    intro f hf
    rw [hsettled]
    exact Function.update_of_ne hf _ _
  have hmono : ∀ g', st.settled.Reserved g' → st'.settled.Reserved g' := by
    intro g' hg'
    refine ⟨?_, ?_, ?_⟩
    · rw [hused]
      exact hg'.used
    · rw [hrefs]
      exact hg'.refs
    · rw [howner]
      exact hg'.owner
  have hgentle : Gentle st.settled st'.settled d (some g) := by
    refine ⟨fun k f hk => hbytes f (hreserved.refs k _ hk), fun g' hne hg' => ⟨hmono g' hg', hbytes g' ?_⟩, fun q r hr => ?_⟩
    · rintro rfl
      exact hne rfl
    · rw [hrefs] at hr
      exact .inl ⟨r, hr, rfl⟩
  refine h.step (d := d) (some g) ⟨by rw [hst', hpaging]; rfl, fun x _ => by rw [hst', hpaging]; rfl,
    fun x hx => Function.update_of_ne hx _ _⟩ hgentle ?_ ?_ ?_ ?_
  · rw [hsettled]
    exact (hwf.kernelStep hstep).withBytes _
  · intro x c' hx hc' hcopying
    rw [hrefs]
    exact (h.pending x c' hc').reader hcopying
  · rintro x c' g' hx hc' htarget ⟨⟩
    exact hx (h.targets x d c' c g hc' hfault htarget (by rw [hphase]; rfl))
  · intro c' hc'
    obtain rfl : { c with phase := .copied g } = c' := by simpa [hst'] using hc'
    refine ⟨⟨?_, hpending.user, ?_, ?_, ?_, ?_, ?_, ?_, ?_, ?_⟩, rfl, by simp, ?_⟩
    · rw [hst', hpaging]
      exact hpending.lt
    · rw [hst', hpaging]
      exact hpending.present
    · rw [hst', hpaging]
      exact hpending.readOnly
    · rw [hst', hpaging]
      exact hpending.table
    · simp [CowPhase.copying, CowPhase.hidden]
    · simp [CowPhase.copying]
    · rintro g' ⟨⟩
      exact hmono g hreserved
    · rintro g' ⟨⟩
      refine Eq.trans ?_ (hpending.unread (.inl (by rw [hphase]; rfl)))
      exact Function.update_self _ _ _
    · simp
    · simp [CowPhase.copying]

/-- The handler makes its page writable and is done. -/
theorem Inv.complete (h : st.Inv) {p g : Nat} (ho : Others st st' d) (hdone : st'.fault d = none)
    (hwf : st'.settled.Wf) (hrefs : st'.settled.refs = Function.update st.settled.refs (d, p) (some ⟨g, true⟩))
    (howner : st'.settled.owner = st.settled.owner) (hmap : st'.settled.phyFramesMap = st.settled.phyFramesMap)
    (hbytes : ∀ f, st.settled.phyFramesMap.testBit f = true → st'.settled.bytes f = st.settled.bytes f)
    (hapart : ∀ x f, x ≠ d → st.Copying x f → st.settled.refs (d, p) ≠ some ⟨f, false⟩)
    (hown : ∀ x c g', x ≠ d → st.fault x = some c → c.phase.target = some g' → g' ≠ g)
    (hnew : (∃ r, st.settled.refs (d, p) = some r ∧ r.frame = g) ∨ ∀ k r, st.settled.refs k = some r → r.frame ≠ g) :
    st'.Inv := by
  have hold : ∀ k r, st'.settled.refs k = some r → r = ⟨g, true⟩ ∧ k = (d, p) ∨ st.settled.refs k = some r := by
    intro k r hk
    rw [hrefs] at hk
    by_cases hkey : k = (d, p)
    · rw [hkey, Function.update_self, Option.some.injEq] at hk
      exact .inl ⟨hk.symm, hkey⟩
    · rw [Function.update_of_ne hkey] at hk
      exact .inr hk
  refine h.step (some g) ho ⟨?_, ?_, ?_⟩ hwf ?_ ?_ ?_
  · intro k f hk
    exact hbytes f (h.wf.sound.used k _ hk)
  · intro g' hne hg'
    refine ⟨⟨by rw [hmap]; exact hg'.used, ?_, by rw [howner]; exact hg'.owner⟩, hbytes g' hg'.used⟩
    intro k r hk
    rcases hold k r hk with ⟨rfl, -⟩ | hk
    · rintro rfl
      exact hne rfl
    · exact hg'.refs k r hk
  · intro q r hr
    rcases hold _ r hr with ⟨rfl, hkey⟩ | hk
    · rw [hkey]
      exact hnew
    · exact .inl ⟨r, hk, rfl⟩
  · intro x c hx hc hcopying
    obtain ⟨k, hk⟩ := (h.pending x c hc).reader hcopying
    have hkey : k ≠ (d, p) := by
      rintro rfl
      exact hapart x _ hx ⟨c, hc, hcopying, rfl⟩ hk
    exact ⟨k, by rw [hrefs, Function.update_of_ne hkey]; exact hk⟩
  · rintro x c g' hx hc htarget ⟨⟩
    exact hown x c g hx hc htarget rfl
  · intro c hc
    simp [hdone] at hc

/-- Changing the entry of a fault that ends here changes the settled entry. -/
theorem settled_dirs_complete (hfault : st.fault d = some c) (hp : isUserPage c.page) (e : Pte) {t : Paging}
    (ht : t.dirs = ((st.running d).setPte c.page e).dirs) :
    (settled ⟨t, Function.update st.fault d none⟩).dirs = ((st.settledAt d).setPte c.page e).dirs := by
  rw [setPte_user hp, setCrtDir, crtDir] at ht ⊢
  funext x
  simp only [settled, ht]
  by_cases hx : x = d
  · subst hx
    simp only [Function.update_self, settledDir, Interleaving.settledAt, running, settled, hfault]
    split_ifs <;> simp
  · simp [hx, Interleaving.settledAt, running, settled]

/-- The state after the update of the entry and the release of the window. -/
def afterUpdate (st : Interleaving) (d : Nat) (c : CowFault) (g : Nat) : Paging :=
  ((st.running d).setPte c.page { (st.running d).getPte c.page with frame := g, rw := true }).releasePages
    copiedPageVaddr 1 false

/-- Releasing the window changes the kernel half only. -/
theorem releasePages_window (s : Paging) : ∃ kernelPte, s.releasePages copiedPageVaddr 1 false =
    { s with kernelPte := kernelPte } := by
  rw [releasePages_one isKernelPage_copiedPage.1, releasePage,
    show copiedPageVaddr / pageSize * pageSize / pageSize = copiedPageVaddr / pageSize from rfl]
  simp only [Bool.false_eq_true, if_false]
  split_ifs
  · exact ⟨s.kernelPte, rfl⟩
  · exact ⟨_, setPte_kernel isKernelPage_copiedPage _⟩
  · exact ⟨s.kernelPte, rfl⟩

theorem Inv.update_kernelStep (h : st.Inv) (hfault : st.fault d = some c) (g : Nat) : KernelStep
    ((st.running d).setPte c.page { (st.running d).getPte c.page with frame := g, rw := true }) (st.afterUpdate d c g) := by
  have hpending := h.pending d c hfault
  have hwf := h.settledAt hpending.lt
  refine releasePages_kernel ⟨?_, ?_, ?_⟩ isKernelPage_copiedPage <;> rw [setPte_user hpending.user]
  · intro i hi hkernel
    have hpresent := hwf.kernel_pde d hpending.lt i hi hkernel
    simp only [Interleaving.settledAt, settled, settledDir_pde] at hpresent
    simpa [getPde, crtDir, setCrtDir, running] using hpresent
  · exact hwf.kernel_rw
  · exact hwf.size

/-- The entry of the page of a fault. -/
theorem Pending.getPte (h : st.Pending d c) : (st.running d).getPte c.page = (st.paging.dirs d).pte c.page :=
  getPte_user h.user

/-- The settled state has the page table of a fault. -/
theorem Pending.settled_table (h : st.Pending d c) : ((st.settledAt d).getPde (c.page / 1024)).present := by
  change ((settledDir (st.paging.dirs d) (st.fault d)).pde (c.page / 1024)).present
  rw [settledDir_pde]
  exact h.table

/-- The handler maps the copy. -/
theorem Inv.update (h : st.Inv) (hfault : st.fault d = some c) {g : Nat} (hphase : c.phase = .copied g) :
    Inv ⟨st.afterUpdate d c g, Function.update st.fault d none⟩ ∧
      Isolated st ⟨st.afterUpdate d c g, Function.update st.fault d none⟩ d := by
  have hpending := h.pending d c hfault
  have hwf := h.settledAt hpending.lt
  have hreserved := hpending.target g (by rw [hphase]; rfl)
  have hstep := h.update_kernelStep hfault g
  have hnone := settled_refs_hidden hfault (by rw [hphase]; rfl)
  set e : Pte := { (st.running d).getPte c.page with frame := g, rw := true } with he
  have hpresent : e.present := by
    rw [he, hpending.getPte]
    exact hpending.present
  have hset := setPte_user (s := st.running d) hpending.user e
  set st' : Interleaving := ⟨st.afterUpdate d c g, Function.update st.fault d none⟩ with hst'
  have hpte : PteStep (st.settledAt d) c.page e st'.settled := by
    refine ⟨settled_dirs_complete hfault hpending.user e hstep.dirs, ?_, ?_, ?_, ?_, ?_⟩
    · exact hstep.dirsNum.trans (by rw [hset]; rfl)
    · exact hstep.crt.trans (by rw [hset]; rfl)
    · exact hstep.ready.trans (by rw [hset]; rfl)
    · exact hstep.size.trans (by rw [hset]; rfl)
    · intro hk
      apply hstep.kernel_rw
      rw [hset]
      exact hk
  obtain ⟨kernelPte, hwindow⟩ := releasePages_window ((st.running d).setPte c.page e)
  have hpaging : st.afterUpdate d c g = { (st.running d).setPte c.page e with kernelPte := kernelPte } := hwindow
  rw [hset] at hpaging
  have hmap : st'.settled.phyFramesMap = st.settled.phyFramesMap := by
    rw [hst', hpaging]
    rfl
  have hbytes : st'.settled.bytes = st.settled.bytes := by
    rw [hst', hpaging]
    rfl
  have hcounts : st'.settled.frameCowRefCounts = st.settled.frameCowRefCounts := by
    rw [hst', hpaging]
    rfl
  have hcow : st'.settled.cowCount = st.settled.cowCount := by
    funext f
    rw [cowCount, hcounts, cowCount]
  have hrefs : st'.settled.refs = Function.update st.settled.refs (d, c.page) (some ⟨g, true⟩) := by
    have hrefs := hpte.refs hpending.user hwf.crt_lt hpending.settled_table
    rw [if_pos hpresent] at hrefs
    exact hrefs
  have hsound : st'.settled.store.Sound := by
    have hstore : st'.settled.store = st.settled.store.attach (d, c.page) g := by
      simp only [store, Store.attach, hrefs, hbytes, hcow, usedFrames, hmap]
    have hempty : st.settled.store.sharers g = ∅ := by
      apply Set.eq_empty_of_forall_notMem
      rintro k ⟨w, hk⟩
      exact hreserved.refs k _ hk rfl
    rw [hstore]
    exact h.wf.sound.attach hnone hreserved.used hempty
  refine ⟨h.complete (p := c.page) (g := g) ⟨?_, ?_, ?_⟩ ?_ ?_ hrefs ?_ hmap (fun _ _ => by rw [hbytes]) ?_ ?_ (.inr hreserved.refs), ?_⟩
  · rw [hst', hpaging]
    rfl
  · intro x hx
    rw [hst', hpaging]
    exact Function.update_of_ne hx _ _
  · intro x hx
    exact Function.update_of_ne hx _ _
  · exact Function.update_self _ _ _
  · refine hwf.pteStep hpending.user hpending.settled_table hpte hsound ?_ ?_ (fun _ => hreserved.owner)
      (fun _ k r hk hr => absurd hr (hreserved.refs k r hk))
    · rw [hcounts]
      exact hwf.counts_pos
    · rw [hmap]
      exact hwf.owner_used
  · exact (hpte.tablesKept hpending.user).owner
  · intro x f _ _
    simp [hnone]
  · rintro x c' g' hx hc' htarget rfl
    exact hx (h.targets x d c' c _ hc' hfault htarget (by rw [hphase]; rfl))
  · intro c' hc' _
    rw [hfault, Option.some.injEq] at hc'
    subst hc'
    have hentry : (st'.paging.dirs d).pte c.page = e := by
      rw [hst', hpaging]
      simp [setCrtDir, running, crtDir]
    rw [sharedFrame, hentry]
    refine ⟨hpresent, rfl, ?_⟩
    rw [show st'.paging.bytes = st'.settled.bytes from rfl, hbytes]
    exact hpending.copied g hphase

/-- The handler makes the frame writable that it found unshared. -/
theorem Inv.upgrade (h : st.Inv) (hfault : st.fault d = some c) (hphase : c.phase = .owning) :
    Inv ⟨(st.running d).setPte c.page { (st.running d).getPte c.page with rw := true }, Function.update st.fault d none⟩ ∧
      Isolated st ⟨(st.running d).setPte c.page { (st.running d).getPte c.page with rw := true },
        Function.update st.fault d none⟩ d := by
  have hpending := h.pending d c hfault
  have hwf := h.settledAt hpending.lt
  have hvisible : c.phase.hidden = false := by rw [hphase]; rfl
  have href := hpending.ref hfault hvisible
  set e : Pte := { (st.running d).getPte c.page with rw := true } with he
  have hpresent : e.present := by
    rw [he, hpending.getPte]
    exact hpending.present
  have hframe : e.frame = st.sharedFrame d c := by
    rw [he, hpending.getPte]
    rfl
  have hset := setPte_user (s := st.running d) hpending.user e
  set st' : Interleaving := ⟨(st.running d).setPte c.page e, Function.update st.fault d none⟩ with hst'
  have hpte : PteStep (st.settledAt d) c.page e st'.settled := by
    refine ⟨settled_dirs_complete hfault hpending.user e rfl, ?_, ?_, ?_, ?_, ?_⟩ <;> rw [hst', hset]
    · rfl
    · rfl
    · rfl
    · rfl
    · exact fun hk => hk
  have hmap : st'.settled.phyFramesMap = st.settled.phyFramesMap := by
    rw [hst', hset]
    rfl
  have hbytes : st'.settled.bytes = st.settled.bytes := by
    rw [hst', hset]
    rfl
  have hcounts : st'.settled.frameCowRefCounts = st.settled.frameCowRefCounts := by
    rw [hst', hset]
    rfl
  have hcow : st'.settled.cowCount = st.settled.cowCount := by
    funext f
    rw [cowCount, hcounts, cowCount]
  have hrefs : st'.settled.refs = Function.update st.settled.refs (d, c.page) (some ⟨st.sharedFrame d c, true⟩) := by
    have hrefs := hpte.refs hpending.user hwf.crt_lt hpending.settled_table
    rw [if_pos hpresent, hframe] at hrefs
    exact hrefs
  have hzero : st.settled.cowCount (st.sharedFrame d c) = 0 := by
    by_contra hne
    obtain ⟨k', hkey, w, hk'⟩ := h.wf.sound.exists_other (k := (d, c.page)) (Nat.pos_of_ne_zero hne)
    exact hkey (hpending.sole hphase k' _ hk' rfl)
  have hsound : st'.settled.store.Sound := by
    have hstore : st'.settled.store = st.settled.store.own (d, c.page) (st.sharedFrame d c) := by
      simp only [store, Store.own, hrefs, hbytes, hcow, usedFrames, hmap]
    rw [hstore]
    exact h.wf.sound.own href hzero
  refine ⟨h.complete (p := c.page) (g := st.sharedFrame d c) ⟨?_, ?_, ?_⟩ ?_ ?_ hrefs ?_ hmap
    (fun _ _ => by rw [hbytes]) ?_ ?_ (.inl ⟨_, href, rfl⟩), ?_⟩
  · rw [hst', hset]
    rfl
  · intro x hx
    rw [hst', hset]
    exact Function.update_of_ne hx _ _
  · intro x hx
    exact Function.update_of_ne hx _ _
  · exact Function.update_self _ _ _
  · refine hwf.pteStep hpending.user hpending.settled_table hpte hsound ?_ ?_ ?_ ?_
    · rw [hcounts]
      exact hwf.counts_pos
    · rw [hmap]
      exact hwf.owner_used
    · intro _ x hx
      exact h.wf.owner_private x _ hx _ _ href hframe.symm
    · intro _ k r hk hr
      exact h.wf.aligned k _ r _ hk href (hr.trans hframe)
  · exact (hpte.tablesKept hpending.user).owner
  · rintro x f hx ⟨c', hc', hcopying, rfl⟩ heq
    rw [href, Option.some.injEq, Ref.mk.injEq] at heq
    exact h.apart d x c c' hfault hc' hphase hcopying heq.1
  · rintro x c' g' hx hc' htarget rfl
    exact ((h.pending x c' hc').target _ htarget).refs _ _ href rfl
  · intro c' hc' _
    rw [hfault, Option.some.injEq] at hc'
    subst hc'
    have hentry : (st'.paging.dirs d).pte c.page = e := by
      rw [hst', hset]
      simp [setCrtDir, running, crtDir]
    rw [sharedFrame, hentry]
    refine ⟨hpresent, rfl, ?_⟩
    rw [show st'.paging.bytes = st'.settled.bytes from rfl, hbytes, hframe]
    exact hpending.unread (.inr hvisible)

end Interleaving

end LuckOS.Paging
